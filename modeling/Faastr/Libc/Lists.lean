import Faastr.Lib.Ensures
import Faastr.Lib.LittleEndian
import Faastr.Libc.Strings

/-!
The lists of the C library (`libc/db.c`).

The `db` service maps keys to values. A list has a key for its size, `name/index`, and one for each
element, `name/` and the decimal numeral of its index. Keys are put together in buffers from
`alloca`; a write past the end of a buffer stops the model, as does a read through `NULL`.

`ListAppend` stores the new element one index too far, so that an element can be read back only
after `ListSet` has stored it again. `ListDelete` takes the length of the numeral before there is one
and always writes past its buffer.

* `elementText_inj`: keys of different lists or indices are different.
* `lists_correct`: in every run that reads only what `ListSet` has stored and deletes nothing the
  results are those of a map from names to sequences.
-/

namespace Faastr.Lists

open Faastr.Lib Faastr.Strings

abbrev Name := List UInt8

abbrev Key := List UInt8

abbrev Value := List UInt8

/-- What the service holds. -/
abbrev Store := Key → Option Value

/-- Why the code has no meaning. -/
inductive Fault where
  | overflow
  | null
  | fuel
deriving DecidableEq

abbrev Db := StateT Store (Except Fault)

/-! ### The code -/

def set (key : Key) (value : Value) : Db Unit := modify fun s => Function.update s key (some value)

def get (key : Key) : Db (Option Value) := modifyGet fun s => (s key, s)

def delete (key : Key) : Db Unit := modify fun s => Function.update s key none

/-- A buffer with the string that it holds. -/
structure Buffer where
  capacity : Nat
  text : List UInt8

def alloca (size : Nat) : Buffer := ⟨size, []⟩

/-- `strcpy` to an offset; the zero behind the string has to fit as well. -/
def strcpy (b : Buffer) (offset : Nat) (src : List UInt8) : Except Fault Buffer :=
  if offset + src.length + 1 ≤ b.capacity then .ok { b with text := b.text.take offset ++ src }
  else .error .overflow

def strcat (b : Buffer) (src : List UInt8) : Except Fault Buffer := strcpy b b.text.length src

/-- `char number[20] = {0}; itoa(n, number);` -/
def itoaText (n : Int32) : Except Fault (List UInt8) :=
  match itoa 20 (fun _ => 0) n 0 with
  | none => .error .fuel
  | some (_, m) =>
      match strlen 20 m 0 with
      | none => .error .fuel
      | some length => .ok ((List.range length).map fun k : Nat => m (k : Int))

/-- `"/"`. -/
def slash : UInt8 := 47

/-- `"index"`. -/
def indexText : List UInt8 := [105, 110, 100, 101, 120]

def sizeKey (name : Name) : Except Fault Key := do
  let key := alloca (name.length + indexText.length + 2)
  let key ← strcpy key 0 name
  let key ← strcat key (slash :: indexText)
  return key.text

def elementKey (name : Name) (index : Int32) : Except Fault Key := do
  let number ← itoaText index
  let key := alloca (name.length + number.length + 2)
  let key ← strcpy key 0 name
  let key ← strcat key [slash]
  let key ← strcat key number
  return key.text

def listSetSize (name : Name) (size : Int32) : Db Unit := do
  let key ← sizeKey name
  set key (leBytes 4 size.toUInt32.toNat)

def listNew (name : Name) : Db Unit := listSetSize name 0

def listSize (name : Name) : Db Int32 := do
  let key ← sizeKey name
  match ← get key with
  | none => throw .null
  | some bytes =>
      if bytes.length < 4 then throw .overflow
      else return (UInt32.ofNat (leNat (bytes.take 4))).toInt32

def listSetNoCheck (name : Name) (index : Int32) (value : Value) : Db Unit := do
  if index < 0 then return
  let key ← elementKey name index
  set key value

def listSet (name : Name) (index : Int32) (value : Value) : Db Unit := do
  let size ← listSize name
  if index ≥ size then return
  listSetNoCheck name index value

/-- The index is not used. -/
def listAppend (name : Name) (_index : Int32) (value : Value) : Db Unit := do
  let size ← listSize name
  listSetNoCheck name (size + 1) value
  listSetSize name (size + 1)

def listGet (name : Name) (index : Int32) : Db (Option Value) := do
  if index < 0 then return none
  let size ← listSize name
  if index ≥ size then return none
  let key ← elementKey name index
  get key

/-- `itoa(i, number); strcpy(numOffset, number); delete (key);` -/
def deleteAt (numOffset : Nat) (key : Buffer) (i : Nat) : Db Buffer := do
  let number ← itoaText (Int32.ofNat i)
  let key ← strcpy key numOffset number
  delete key.text
  return key

def listDelete (name : Name) : Db Unit := do
  let number : List UInt8 := []
  let key := alloca (name.length + number.length + 2)
  let key ← strcpy key 0 name
  let key ← strcat key [slash]
  let numOffset := key.text.length
  let size ← listSize name
  let key ← (List.range size.toInt.toNat).foldlM (deleteAt numOffset) key
  let key ← strcpy key numOffset indexText
  delete key.text

/-! ### What a list is -/

/-- The calls. -/
inductive Op where
  | new (name : Name)
  | append (name : Name) (index : Int32) (value : Value)
  | set (name : Name) (index : Int32) (value : Value)
  | get (name : Name) (index : Int32)
  | size (name : Name)
  | delete (name : Name)

inductive Result where
  | none
  | value (value : Option Value)
  | size (size : Int)
deriving DecidableEq

/-- The sequences that the names stand for. -/
abbrev Sequences := Name → Option (List Value)

/-- The index is one of the sequence. -/
def InRange (l : List Value) (index : Int32) : Prop := 0 ≤ index.toInt ∧ index.toInt < l.length

instance (l : List Value) (index : Int32) : Decidable (InRange l index) :=
  inferInstanceAs (Decidable (_ ∧ _))

namespace Op

def name : Op → Name
  | new name | append name _ _ | set name _ _ | get name _ | size name | delete name => name

/-- The code of a call. -/
def run : Op → Db Result
  | new name => do
      listNew name
      return .none
  | append name index value => do
      listAppend name index value
      return .none
  | set name index value => do
      listSet name index value
      return .none
  | get name index => return .value (← listGet name index)
  | size name => return .size (← listSize name).toInt
  | delete name => do
      listDelete name
      return .none

/-- What the call does to the sequences. -/
def apply (A : Sequences) : Op → Sequences
  | new name => Function.update A name (some [])
  | append name _ value => Function.update A name ((A name).map (· ++ [value]))
  | set name index value => Function.update A name ((A name).map fun l =>
      if InRange l index then l.set index.toInt.toNat value else l)
  | get _ _ => A
  | size _ => A
  | delete name => Function.update A name none

/-- What the call returns. -/
def result (A : Sequences) : Op → Result
  | get name index => .value ((A name).bind fun l =>
      if InRange l index then l[index.toInt.toNat]? else none)
  | size name => .size ((A name).getD []).length
  | _ => .none

/-- A list is used once `ListNew` has started it. -/
def Started (A : Sequences) : Op → Prop
  | new _ => True
  | op => A op.name ≠ none

instance (A : Sequences) : (op : Op) → Decidable (op.Started A)
  | new _ => .isTrue trivial
  | append name _ _ | set name _ _ | get name _ | size name | delete name =>
      inferInstanceAs (Decidable (A name ≠ none))

end Op

/-- The lists of a run are started with `ListNew`. -/
def Started : Sequences → List Op → Prop
  | _, [] => True
  | A, op :: ops => op.Started A ∧ Started (op.apply A) ops

instance decidableStarted : (A : Sequences) → (ops : List Op) → Decidable (Started A ops)
  | _, [] => .isTrue trivial
  | A, op :: ops => @instDecidableAnd _ _ inferInstance (decidableStarted (op.apply A) ops)

/-- Every call returns what it should, and a deleted list leaves no key. -/
def Correct : Store → Sequences → List Op → Prop
  | _, _, [] => True
  | s, A, op :: ops => ∃ s', op.run.run s = .ok (op.result A, s') ∧
      (∀ name, op = .delete name → ∀ text, s' (name ++ slash :: text) = none) ∧
      Correct s' (op.apply A) ops

/-- The indices of each list that `ListSet` has stored since `ListNew`. -/
abbrev Written := Name → List Nat

namespace Op

def mark (A : Sequences) (W : Written) : Op → Written
  | new name => Function.update W name []
  | set name index _ =>
      match A name with
      | some l =>
          if InRange l index then Function.update W name (index.toInt.toNat :: W name) else W
      | none => W
  | _ => W

/-- The call reads no element that was appended and not stored again, does not make a list longer
than an `int` can say, and deletes nothing. -/
def Careful (A : Sequences) (W : Written) : Op → Prop
  | append name _ _ => ∀ l ∈ A name, l.length + 1 < 2 ^ 31
  | get name index => ∀ l ∈ A name, InRange l index → index.toInt.toNat ∈ W name
  | delete _ => False
  | _ => True

instance (A : Sequences) (W : Written) : (op : Op) → Decidable (op.Careful A W)
  | append name _ _ => inferInstanceAs (Decidable (∀ l ∈ A name, l.length + 1 < 2 ^ 31))
  | get name index =>
      inferInstanceAs (Decidable (∀ l ∈ A name, InRange l index → index.toInt.toNat ∈ W name))
  | delete _ => .isFalse id
  | new _ | set _ _ _ | size _ => .isTrue trivial

end Op

def Careful : Sequences → Written → List Op → Prop
  | _, _, [] => True
  | A, W, op :: ops => op.Careful A W ∧ Careful (op.apply A) (op.mark A W) ops

instance decidableCareful : (A : Sequences) → (W : Written) → (ops : List Op) → Decidable (Careful A W ops)
  | _, _, [] => .isTrue trivial
  | A, W, op :: ops =>
      @instDecidableAnd _ _ inferInstance (decidableCareful (op.apply A) (op.mark A W) ops)

/-! ### Keys -/

/-- The key of the size. -/
def sizeText (name : Name) : Key := name ++ slash :: indexText

/-- The numeral of an index. -/
def decimal (k : Nat) : List UInt8 := (itoaText (Int32.ofNat k)).toOption.getD []

/-- The key of an element. -/
def elementText (name : Name) (k : Nat) : Key := name ++ slash :: decimal k

section Keys

variable {name name' : Name} {k k' : Nat} {a b : List UInt8}

theorem itoaText_of_ne {n : Int32} (h : n ≠ Int32.minValue) :
    ∃ text, itoaText n = .ok text ∧ IsNumeral n.toInt text := by
  obtain ⟨text, htext, hlength, hrun⟩ := itoa_eq (m := fun _ => 0) (s := 0) h (by decide : 12 ≤ 20)
  have hne : ∀ b ∈ text, b ≠ 0 := by
    obtain ⟨ds, hds, rfl⟩ := htext
    rintro b hb rfl
    rcases List.mem_append.mp hb with hb | hb
    · split at hb
      · cases List.mem_singleton.mp hb
      · cases hb
    · exact absurd (hds.digit 0 hb).1 (by decide)
  have hlen : strlen 20 (put (fun _ => 0) 0 (text ++ [0])) 0 = some text.length :=
    strlen_put (r := []) hne (by omega)
  refine ⟨text, ?_, htext⟩
  rw [itoaText, hrun]
  dsimp only
  rw [hlen]
  dsimp only
  refine congrArg Except.ok (List.ext_getElem (by simp) fun i hi hi' => ?_)
  have hbyte := put_getElem (m := fun _ => 0) (s := 0) (l := text ++ [0]) (i := i) (by simp; omega)
  rw [Int.zero_add] at hbyte
  rw [List.getElem_map, List.getElem_range, hbyte, List.getElem_append_left hi']

theorem ofNat_ne_minValue (h : k < 2 ^ 31) : Int32.ofNat k ≠ Int32.minValue := by
  rw [Ne, ← Int32.toInt_inj, Int32.toInt_ofNat_of_lt h]
  show (k : Int) ≠ -2147483648
  omega

theorem decimal_spec (h : k < 2 ^ 31) :
    itoaText (Int32.ofNat k) = .ok (decimal k) ∧ IsNumeral k (decimal k) := by
  obtain ⟨text, hrun, htext⟩ := itoaText_of_ne (ofNat_ne_minValue h)
  have hdecimal : decimal k = text := by rw [decimal, hrun]; rfl
  rw [hdecimal]
  rw [Int32.toInt_ofNat_of_lt h] at htext
  exact ⟨hrun, htext⟩

/-- A numeral has digits only. -/
theorem decimal_digit (h : k < 2 ^ 31) : ∀ d ∈ decimal k, 48 ≤ d ∧ d ≤ 57 := by
  obtain ⟨ds, hds, htext⟩ := (decimal_spec h).2
  rw [if_neg (by omega), List.nil_append] at htext
  rw [htext]
  exact hds.digit

theorem slash_notMem_decimal (h : k < 2 ^ 31) : slash ∉ decimal k := fun hmem =>
  absurd (decimal_digit h slash hmem).1 (by decide)

theorem decimal_inj (h : k < 2 ^ 31) (h' : k' < 2 ^ 31) (heq : decimal k = decimal k') : k = k' := by
  have hread := (decimal_spec h).2.read
  rw [heq, (decimal_spec h').2.read] at hread
  exact Int.ofNat_inj.mp hread.symm

/-- What stands behind the last slash, and before it. -/
theorem append_slash_inj (ha : slash ∉ a) (hb : slash ∉ b)
    (h : name ++ slash :: a = name' ++ slash :: b) : name = name' ∧ a = b := by
  have hcut : ∀ {c d x : List UInt8}, slash ∉ c → slash :: c = x ++ slash :: d → x = [] ∧ c = d := by
    intro c d x hc heq
    cases x with
    | nil => exact ⟨rfl, (List.cons.inj heq).2⟩
    | cons y x =>
      rw [List.cons_append] at heq
      exact absurd ((List.cons.inj heq).2 ▸ List.mem_append_right x List.mem_cons_self) hc
  rcases List.append_eq_append_iff.mp h with ⟨x, rfl, hx⟩ | ⟨x, rfl, hx⟩
  · obtain ⟨rfl, rfl⟩ := hcut ha hx
    exact ⟨(List.append_nil name).symm, rfl⟩
  · obtain ⟨rfl, rfl⟩ := hcut hb hx
    exact ⟨List.append_nil name', rfl⟩

theorem elementText_inj (h : k < 2 ^ 31) (h' : k' < 2 ^ 31)
    (heq : elementText name k = elementText name' k') : name = name' ∧ k = k' := by
  obtain ⟨hname, hdecimal⟩ := append_slash_inj (slash_notMem_decimal h) (slash_notMem_decimal h') heq
  exact ⟨hname, decimal_inj h h' hdecimal⟩

theorem sizeText_inj (heq : sizeText name = sizeText name') : name = name' :=
  (append_slash_inj (by decide) (by decide) heq).1

theorem elementText_ne_sizeText (h : k < 2 ^ 31) : elementText name k ≠ sizeText name' := by
  intro heq
  obtain ⟨-, hdecimal⟩ := append_slash_inj (slash_notMem_decimal h) (by decide) heq
  have hletter := decimal_digit h 105 (by rw [hdecimal]; decide)
  exact absurd hletter.2 (by decide)

theorem strcpy_ok {b : Buffer} {offset : Nat} {src : List UInt8}
    (h : offset + src.length + 1 ≤ b.capacity) :
    strcpy b offset src = .ok { b with text := b.text.take offset ++ src } := if_pos h

theorem strcat_ok {b : Buffer} {src : List UInt8} (h : b.text.length + src.length + 1 ≤ b.capacity) :
    strcat b src = .ok { b with text := b.text ++ src } := by
  rw [strcat, strcpy_ok h, List.take_length]

theorem sizeKey_ok (name : Name) : sizeKey name = .ok (sizeText name) := by
  have hname : strcpy (alloca (name.length + indexText.length + 2)) 0 name =
      .ok ⟨name.length + indexText.length + 2, name⟩ := strcpy_ok (by simp [alloca]; omega)
  have hrest : strcat ⟨name.length + indexText.length + 2, name⟩ (slash :: indexText) =
      .ok ⟨name.length + indexText.length + 2, sizeText name⟩ := strcat_ok (by simp; omega)
  rw [sizeKey, hname]
  exact congrArg (Except.map Buffer.text) hrest

theorem elementKey_ok (name : Name) (h : k < 2 ^ 31) :
    elementKey name (Int32.ofNat k) = .ok (elementText name k) := by
  have hname : strcpy (alloca (name.length + (decimal k).length + 2)) 0 name =
      .ok ⟨name.length + (decimal k).length + 2, name⟩ := strcpy_ok (by simp [alloca]; omega)
  have hslash : strcat ⟨name.length + (decimal k).length + 2, name⟩ [slash] =
      .ok ⟨name.length + (decimal k).length + 2, name ++ [slash]⟩ := strcat_ok (by simp)
  have hrest : strcat ⟨name.length + (decimal k).length + 2, name ++ [slash]⟩ (decimal k) =
      .ok ⟨name.length + (decimal k).length + 2, elementText name k⟩ := by
    rw [strcat_ok (by simp; omega), elementText, List.append_assoc, List.singleton_append]
  rw [elementKey, (decimal_spec h).1]
  show (strcpy _ 0 name >>= _) = _
  rw [hname]
  show (strcat _ [slash] >>= _) = _
  rw [hslash]
  exact congrArg (Except.map Buffer.text) hrest

end Keys

/-! ### The calls -/

section Calls

variable {s : Store} {name : Name} {k : Nat} {index : Int32} {value : Value}

theorem run_lift {α β : Type} {e : Except Fault α} {a : α} {f : α → Db β} (h : e = .ok a) :
    ((liftM e : Db α) >>= f).run s = (f a).run s := by
  subst h
  rfl

/-- The size that the store has for a list. -/
def HasSize (s : Store) (name : Name) (k : Nat) : Prop :=
  k < 2 ^ 31 ∧ s (sizeText name) = some (leBytes 4 k)

theorem listSize_run (h : HasSize s name k) : (listSize name).run s = .ok (Int32.ofNat k, s) := by
  have hread : (get (sizeText name)).run s = .ok (some (leBytes 4 k), s) := by
    rw [← h.2]
    rfl
  have hvalue : (UInt32.ofNat (leNat ((leBytes 4 k).take 4))).toInt32 = Int32.ofNat k := by
    rw [List.take_of_length_le (by simp), leNat_leBytes (Nat.lt_of_lt_of_le h.1 (by decide))]
    rfl
  rw [listSize, run_lift (sizeKey_ok name), run_bind hread]
  simp only [leBytes_length, Nat.lt_irrefl, if_false, hvalue]
  rfl

theorem listSetSize_run (name : Name) (h : k < 2 ^ 31) : (listSetSize name (Int32.ofNat k)).run s =
    .ok ((), Function.update s (sizeText name) (some (leBytes 4 k))) := by
  have hbytes : (Int32.ofNat k).toUInt32.toNat = k := by
    show (UInt32.ofNat k).toNat = k
    exact UInt32.toNat_ofNat_of_lt (Nat.lt_trans h (by decide))
  rw [listSetSize, run_lift (sizeKey_ok name), hbytes]
  rfl

theorem listSetNoCheck_run (name : Name) (h : k < 2 ^ 31) (value : Value) :
    (listSetNoCheck name (Int32.ofNat k) value).run s =
      .ok ((), Function.update s (elementText name k) (some value)) := by
  have hpos : ¬ Int32.ofNat k < 0 := by
    rw [Int32.lt_iff_toInt_lt, Int32.toInt_ofNat_of_lt h]
    exact Int.not_lt.mpr (Int.natCast_nonneg k)
  rw [listSetNoCheck, if_neg hpos]
  exact run_lift (elementKey_ok name h)

theorem listSetNoCheck_negative (h : index < 0) : (listSetNoCheck name index value).run s = .ok ((), s) := by
  rw [listSetNoCheck, if_pos h]
  rfl

/-- An index of the sequence, as a number. -/
theorem InRange.eq {l : List Value} (h : InRange l index) (hl : l.length < 2 ^ 31) :
    index.toInt.toNat < l.length ∧ index = Int32.ofNat index.toInt.toNat := by
  obtain ⟨hlo, hhi⟩ := h
  refine ⟨by omega, ?_⟩
  rw [← Int32.toInt_inj, Int32.toInt_ofNat_of_lt (by omega)]
  omega

theorem le_ofNat_iff (h : k < 2 ^ 31) : index ≥ Int32.ofNat k ↔ (k : Int) ≤ index.toInt := by
  rw [ge_iff_le, Int32.le_iff_toInt_le, Int32.toInt_ofNat_of_lt h]

theorem listSet_run {l : List Value} (h : HasSize s name l.length) : (listSet name index value).run s =
    .ok ((), if InRange l index then
      Function.update s (elementText name index.toInt.toNat) (some value) else s) := by
  rw [listSet, run_bind (listSize_run h)]
  by_cases hin : InRange l index
  · obtain ⟨hlt, hindex⟩ := hin.eq h.1
    rw [if_neg (fun hge => absurd ((le_ofNat_iff h.1).mp hge) (Int.not_le.mpr hin.2)), if_pos hin]
    generalize index.toInt.toNat = i at hlt hindex
    subst hindex
    exact listSetNoCheck_run name (Nat.lt_trans hlt h.1) value
  · rw [if_neg hin]
    by_cases hge : index ≥ Int32.ofNat l.length
    · rw [if_pos hge]
      rfl
    · rw [if_neg hge]
      refine listSetNoCheck_negative (Int32.lt_iff_toInt_lt.mpr ?_)
      rw [le_ofNat_iff h.1] at hge
      exact Int.not_le.mp fun hpos => hin ⟨hpos, Int.not_le.mp hge⟩

theorem listGet_run {l : List Value} (h : HasSize s name l.length) : (listGet name index).run s =
    .ok (if InRange l index then s (elementText name index.toInt.toNat) else none, s) := by
  rw [listGet]
  by_cases hneg : index < 0
  · have hout : ¬ InRange l index := fun hin =>
      absurd (Int32.lt_iff_toInt_lt.mp hneg) (Int.not_lt.mpr hin.1)
    rw [if_pos hneg, if_neg hout]
    rfl
  · have hpos : 0 ≤ index.toInt := Int.not_lt.mp fun hlt => hneg (Int32.lt_iff_toInt_lt.mpr hlt)
    rw [if_neg hneg]
    refine (run_bind (listSize_run h)).trans ?_
    by_cases hge : index ≥ Int32.ofNat l.length
    · have hout : ¬ InRange l index := fun hin =>
        absurd ((le_ofNat_iff h.1).mp hge) (Int.not_le.mpr hin.2)
      rw [if_pos hge, if_neg hout]
      rfl
    · rw [le_ofNat_iff h.1] at hge
      have hin : InRange l index := ⟨hpos, Int.not_le.mp hge⟩
      obtain ⟨hlt, hindex⟩ := hin.eq h.1
      rw [if_neg (fun hle => hge ((le_ofNat_iff h.1).mp hle)), if_pos hin]
      generalize index.toInt.toNat = i at hlt hindex
      subst hindex
      exact run_lift (elementKey_ok name (Nat.lt_trans hlt h.1))

/-- The element goes one index too far. -/
theorem listAppend_run (h : HasSize s name k) (hk : k + 1 < 2 ^ 31) :
    (listAppend name index value).run s = .ok ((),
      Function.update (Function.update s (elementText name (k + 1)) (some value)) (sizeText name)
        (some (leBytes 4 (k + 1)))) := by
  have hnext : Int32.ofNat k + 1 = Int32.ofNat (k + 1) := (Int32.ofNat_add k 1).symm
  rw [listAppend, run_bind (listSize_run h), hnext, run_bind (listSetNoCheck_run name hk value)]
  exact listSetSize_run name hk

end Calls

/-! ### Runs -/

/-- The store has the sizes of all lists, and the elements that `ListSet` has stored. -/
structure Related (s : Store) (A : Sequences) (W : Written) : Prop where
  size : ∀ {name l}, A name = some l → HasSize s name l.length
  element : ∀ {name l i}, A name = some l → i ∈ W name →
    ∃ v, l[i]? = some v ∧ s (elementText name i) = some v

section Runs

variable {s : Store} {A : Sequences} {W : Written} {name : Name}

/-- The indices that were stored are indices of the list. -/
theorem Related.lt (h : Related s A W) {l : List Value} {i : Nat} (hl : A name = some l)
    (hi : i ∈ W name) : i < l.length ∧ i < 2 ^ 31 := by
  obtain ⟨v, hv, -⟩ := h.element hl hi
  have hlt := (List.getElem?_eq_some_iff.mp hv).1
  exact ⟨hlt, Nat.lt_trans hlt (h.size hl).1⟩

/-- A list changes, and its keys in the store. -/
theorem Related.update (h : Related s A W) {s' : Store} {l : List Value} {w : List Nat}
    (hothers : ∀ name', name' ≠ name → s' (sizeText name') = s (sizeText name') ∧
      ∀ i < 2 ^ 31, s' (elementText name' i) = s (elementText name' i))
    (hsize : HasSize s' name l.length)
    (helement : ∀ i ∈ w, ∃ v, l[i]? = some v ∧ s' (elementText name i) = some v) :
    Related s' (Function.update A name (some l)) (Function.update W name w) where
  size {name' l'} hl := by
    by_cases hname : name' = name
    · subst hname
      rw [Function.update_self] at hl
      cases hl
      exact hsize
    · rw [Function.update_of_ne hname] at hl
      rw [HasSize, (hothers name' hname).1]
      exact h.size hl
  element {name' l' i} hl hi := by
    by_cases hname : name' = name
    · subst hname
      rw [Function.update_self] at hl hi
      cases hl
      exact helement i hi
    · rw [Function.update_of_ne hname] at hl hi
      rw [(hothers name' hname).2 i (h.lt hl hi).2]
      exact h.element hl hi

theorem Related.new (h : Related s A W) (name : Name) :
    Related (Function.update s (sizeText name) (some (leBytes 4 0)))
      (Function.update A name (some [])) (Function.update W name []) := by
  refine h.update (fun name' hname => ⟨?_, fun i hi => ?_⟩) ⟨by decide, Function.update_self ..⟩ nofun
  · exact Function.update_of_ne (fun heq => hname (sizeText_inj heq)) ..
  · exact Function.update_of_ne (elementText_ne_sizeText hi) ..

theorem Related.append (h : Related s A W) {l : List Value} (hl : A name = some l)
    (hlength : l.length + 1 < 2 ^ 31) (value : Value) :
    Related (Function.update (Function.update s (elementText name (l.length + 1)) (some value))
      (sizeText name) (some (leBytes 4 (l.length + 1))))
      (Function.update A name (some (l ++ [value]))) W := by
  rw [← Function.update_eq_self name W]
  refine h.update (fun name' hname => ⟨?_, fun i hi => ?_⟩) ⟨by simpa using hlength, ?_⟩ fun i hi => ?_
  · rw [Function.update_of_ne fun heq => hname (sizeText_inj heq),
      Function.update_of_ne (elementText_ne_sizeText hlength).symm]
  · rw [Function.update_of_ne (elementText_ne_sizeText hi),
      Function.update_of_ne fun heq => hname (elementText_inj hi hlength heq).1]
  · rw [Function.update_self, List.length_append, List.length_singleton]
  · obtain ⟨hlt, hsmall⟩ := h.lt hl hi
    obtain ⟨v, hv, hstored⟩ := h.element hl hi
    refine ⟨v, by rw [List.getElem?_append_left hlt, hv], ?_⟩
    have hne : i ≠ l.length + 1 := by omega
    rw [Function.update_of_ne (elementText_ne_sizeText hsmall),
      Function.update_of_ne fun heq => hne (elementText_inj hsmall hlength heq).2, hstored]

theorem Related.set (h : Related s A W) {l : List Value} (hl : A name = some l) {i : Nat}
    (hi : i < l.length) (value : Value) :
    Related (Function.update s (elementText name i) (some value))
      (Function.update A name (some (l.set i value))) (Function.update W name (i :: W name)) := by
  obtain ⟨hsmall, hstored⟩ := h.size hl
  have hi' : i < 2 ^ 31 := Nat.lt_trans hi hsmall
  refine h.update (fun name' hname => ⟨?_, fun j hj => ?_⟩) ⟨by simpa using hsmall, ?_⟩ ?_
  · exact Function.update_of_ne (elementText_ne_sizeText hi').symm ..
  · exact Function.update_of_ne (fun heq => hname (elementText_inj hj hi' heq).1) ..
  · rw [Function.update_of_ne (elementText_ne_sizeText hi').symm, List.length_set, hstored]
  · intro j hj
    by_cases hij : j = i
    · subst hij
      exact ⟨value, List.getElem?_set_self hi, Function.update_self ..⟩
    · have hj := (List.mem_cons.mp hj).resolve_left hij
      obtain ⟨v, hv, hs⟩ := h.element hl hj
      refine ⟨v, by rw [List.getElem?_set_ne (Ne.symm hij), hv], ?_⟩
      rw [Function.update_of_ne fun heq => hij (elementText_inj (h.lt hl hj).2 hi' heq).2, hs]

/-- A call of a list that has been started. -/
theorem Related.step (h : Related s A W) {op : Op} (hstarted : op.Started A) (hcareful : op.Careful A W) :
    ∃ s', op.run.run s = .ok (op.result A, s') ∧ Related s' (op.apply A) (op.mark A W) := by
  cases op with
  | new name => exact ⟨_, run_bind (listSetSize_run name (k := 0) (by decide)), h.new name⟩
  | append name index value =>
    obtain ⟨l, hl⟩ : ∃ l, A name = some l := Option.ne_none_iff_exists'.mp hstarted
    have hlength := hcareful l hl
    refine ⟨_, run_bind (listAppend_run (h.size hl) hlength), ?_⟩
    rw [Op.apply, hl]
    exact h.append hl hlength value
  | set name index value =>
    obtain ⟨l, hl⟩ : ∃ l, A name = some l := Option.ne_none_iff_exists'.mp hstarted
    refine ⟨_, run_bind (listSet_run (h.size hl)), ?_⟩
    rw [Op.apply, Op.mark, hl]
    by_cases hin : InRange l index
    · simp only [if_pos hin, Option.map_some]
      exact h.set hl (hin.eq (h.size hl).1).1 value
    · simp only [if_neg hin, Option.map_some]
      rwa [← hl, Function.update_eq_self]
  | get name index =>
    obtain ⟨l, hl⟩ : ∃ l, A name = some l := Option.ne_none_iff_exists'.mp hstarted
    refine ⟨s, (run_bind (listGet_run (h.size hl))).trans ?_, h⟩
    rw [Op.result, hl]
    by_cases hin : InRange l index
    · obtain ⟨v, hv, hs⟩ := h.element hl (hcareful l hl hin)
      simp only [if_pos hin, Option.bind_some, hv, hs]
      rfl
    · simp only [if_neg hin, Option.bind_some]
      rfl
  | size name =>
    obtain ⟨l, hl⟩ : ∃ l, A name = some l := Option.ne_none_iff_exists'.mp hstarted
    refine ⟨s, (run_bind (listSize_run (h.size hl))).trans ?_, h⟩
    rw [Op.result, hl, Int32.toInt_ofNat_of_lt (h.size hl).1]
    rfl
  | delete name => exact hcareful.elim

/-- A run goes on from any state in which the store has what it should. -/
theorem Related.correct {ops : List Op} (h : Related s A W) (hstarted : Started A ops)
    (hcareful : Careful A W ops) : Correct s A ops := by
  induction ops generalizing s A W with
  | nil => trivial
  | cons op ops ih =>
    obtain ⟨s', hrun, h'⟩ := h.step hstarted.1 hcareful.1
    refine ⟨s', hrun, ?_, ih h' hstarted.2 hcareful.2⟩
    rintro name rfl
    exact hcareful.1.elim

end Runs

/-- **When the lists are lists.** In every run that reads of a list only what `ListSet` has stored
since `ListNew`, makes no list longer than an `int` can say and deletes none, whatever the store has
at the start, all results are those of a map from names to sequences. -/
theorem lists_correct (s : Store) {ops : List Op} (hstarted : Started (fun _ => none) ops)
    (hcareful : Careful (fun _ => none) (fun _ => []) ops) : Correct s (fun _ => none) ops := by
  have h : Related s (fun _ => none) (fun _ => []) := ⟨nofun, nofun⟩
  exact h.correct hstarted hcareful

/-- An element that was appended is not there. -/
def appendThenGet : List Op := [.new [97], .append [97] 0 [7], .get [97] 0]

theorem appended_not_found :
    Started (fun _ => none) appendThenGet ∧ ¬ Correct (fun _ => none) (fun _ => none) appendThenGet := by
  refine ⟨by decide +kernel, ?_⟩
  rintro ⟨s₁, hnew, -, s₂, happend, -, s₃, hget, -⟩
  have hresult : ((do
      let _ ← (Op.new [97]).run
      let _ ← (Op.append [97] 0 [7]).run
      (Op.get [97] 0).run).run fun _ => none).toOption.map Prod.fst = some (.value none) := by
    decide +kernel
  rw [run_bind hnew, run_bind happend, hget] at hresult
  have hvalue : (Op.get [97] 0).result _ = .value none := Option.some.inj hresult
  exact absurd hvalue (by decide +kernel)

/-- Two lists, of which one is changed and read. -/
def setThenGet : List Op :=
  [.new [97], .new [98], .append [97] 0 [7], .set [97] 0 [8], .append [98] 0 [9], .get [97] 0,
    .get [98] 1, .size [97]]

theorem stored_elements_found : Correct (fun _ => none) (fun _ => none) setThenGet :=
  lists_correct _ (by decide +kernel) (by decide +kernel)

end Faastr.Lists
