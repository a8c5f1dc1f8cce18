import Faastr.Sos.Encode

/-!
The SOS decoder (`decode_sos` and `Iterator for DecodeIter` of
`sos-rs/src/lib.rs`).

`next` reads one value off the front of the iterator's bytes. An embedded
message is decoded by the same decoder: handed out as an iterator when the
iterator is lazy, and otherwise collected at once, which makes `next` and
`collect` call each other. The nesting is bounded by the bytes left, so
`collectFuel` runs the two on explicit fuel, and `collect` supplies more than
the bytes can use up: `collect_eq` is the loop as the source writes it, with no
fuel left in it.

A malformed value is not an error: `next` returns nothing, which ends the
iteration.
-/

namespace Faastr.Sos

open Faastr.Lib

/-- `decode_sos`. -/
def decodeSos (buff : List UInt8) (lazy : Bool) : Checked (Option DecodeIter) :=
  if buff.length ≤ 8 then
    return none
  else do
    let count ← readLe 4 (← slice buff 0 4)
    let size ← readLe 4 (← slice buff 4 8)
    if buff.length < size ∨ size < 8 then
      return none
    else
      return some { count := count, buff := ← slice buff 8 size, lazy := lazy }

/-- The bytes of a NUL-terminated payload without the terminator; an empty
payload has none to drop. -/
def unterminated (valLength : Nat) (valData : List UInt8) : Checked (List UInt8) :=
  slice valData 0 (if valLength = 0 then 0 else valLength - 1)

/-- A function: the module up to the first NUL, and the name after it. -/
def decodeFunction (vec : List UInt8) : Checked (Option Value) :=
  match vec.findIdx? (· == 0) with
  | none => return none
  | some pos => do
      match fromUtf8 (← slice vec 0 pos) with
      | none => return none
      | some module =>
          match fromUtf8 (← slice vec (pos + 1) vec.length) with
          | none => return none
          | some name => return some (.function { module, name })

/-- The value a payload spells, by type. `collect` decodes an embedded message
to its end. -/
def decodeValue (collect : DecodeIter → Checked (List Value)) (lazy : Bool) (valType : CType)
    (valLength : Nat) (valData : List UInt8) : Checked (Option Value) :=
  match valType with
  | .invalid => return none
  | .int32 => return some (.int32 (UInt32.ofNat (← readLe 4 valData)).toInt32)
  | .uint32 => return some (.uint32 (UInt32.ofNat (← readLe 4 valData)))
  | .int64 => return some (.int64 (UInt64.ofNat (← readLe 8 valData)).toInt64)
  | .uint64 => return some (.uint64 (UInt64.ofNat (← readLe 8 valData)))
  | .float => return some (.float (UInt32.ofNat (← readLe 4 valData)))
  | .double => return some (.double (UInt64.ofNat (← readLe 8 valData)))
  | .string => return (fromUtf8 (← unterminated valLength valData)).map .string
  | .error => return (fromUtf8 (← unterminated valLength valData)).map .error
  | .opaqueBytes => return some (.opaqueBytes (← slice valData 0 valLength))
  | .function => do decodeFunction (← unterminated valLength valData)
  | .embedded => do
      match ← decodeSos valData lazy with
      | none => return none
      | some iter =>
          if lazy then return some (.embeddedOut iter)
          else return some (.embeddedVec (← collect iter))

/-- Where the payload starts and how long it is, read off the bytes at hand. -/
def payloadSpan (valType : CType) (buff : List UInt8) : Checked (Nat × Nat) :=
  match valType.width with
  | some w => return (1, w)
  | none => return (5, ← readLe 4 (← slice buff 1 5))

/-- `DecodeIter::next`, over a given way to collect an embedded iterator. -/
def nextWith (collect : DecodeIter → Checked (List Value)) (it : DecodeIter) :
    Checked (Option Value × DecodeIter) :=
  if it.buff.length < 5 ∨ it.count = 0 then
    return (none, it)
  else do
    match CType.fromU8 (← getAt it.buff 0) with
    | none => return (none, it)
    | some valType =>
        let (offset, valLength) ← payloadSpan valType it.buff
        if it.buff.length < valLength + offset then
          return (none, it)
        else
          let valData ← slice it.buff offset (offset + valLength)
          match ← decodeValue collect it.lazy valType valLength valData with
          | none => return (none, it)
          | some val =>
              let buff ← slice it.buff (valLength + offset) it.buff.length
              return (some val, { it with count := it.count - 1, buff := buff })

/-- `Iterator::collect` over a `DecodeIter`, on fuel. -/
def collectFuel : Nat → DecodeIter → Checked (List Value)
  | 0, _ => return []
  | fuel + 1, it => do
      match ← nextWith (collectFuel fuel) it with
      | (none, _) => return []
      | (some val, it) => return val :: (← collectFuel fuel it)

/-- `iter.collect::<Vec<_>>()`. -/
def collect (it : DecodeIter) : Checked (List Value) := collectFuel (it.buff.length + 1) it

/-- `DecodeIter::next`. -/
def DecodeIter.next (it : DecodeIter) : Checked (Option Value × DecodeIter) := nextWith collect it

/-! ### The bytes left bound the recursion -/

/-- The body of a message is shorter than the message. -/
theorem decodeSos_shrinks {buff : List UInt8} {lazy : Bool} {it : DecodeIter}
    (h : decodeSos buff lazy = .ok (some it)) : it.buff.length < buff.length := by
  unfold decodeSos at h
  split at h
  · cases h
  · rename_i hlong
    obtain ⟨w₀, -, h⟩ := bind_eq_ok.mp h
    obtain ⟨count, -, h⟩ := bind_eq_ok.mp h
    obtain ⟨w₁, -, h⟩ := bind_eq_ok.mp h
    obtain ⟨size, -, h⟩ := bind_eq_ok.mp h
    split at h
    · cases h
    · rename_i hsize
      obtain ⟨body, hbody, h⟩ := bind_eq_ok.mp h
      cases h
      have := length_of_slice hbody
      simp only
      omega

/-- A value is decoded with no other call of `collect` than on shorter bytes. -/
theorem decodeValue_congr {c c' : DecodeIter → Checked (List Value)} {lazy : Bool} {valType : CType}
    {valLength : Nat} {valData : List UInt8}
    (h : ∀ iter : DecodeIter, iter.buff.length < valData.length → c iter = c' iter) :
    decodeValue c lazy valType valLength valData = decodeValue c' lazy valType valLength valData := by
  cases valType with
  | embedded =>
    unfold decodeValue
    cases hd : decodeSos valData lazy with
    | error e => rfl
    | ok o =>
      cases o with
      | none => rfl
      | some iter =>
        have hc := h iter (decodeSos_shrinks hd)
        simp only [bind, Except.bind, hc]
  | _ => rfl

/-- `next` calls `collect` on strictly shorter bytes only. -/
theorem nextWith_congr {c c' : DecodeIter → Checked (List Value)} {it : DecodeIter}
    (h : ∀ iter : DecodeIter, iter.buff.length < it.buff.length → c iter = c' iter) :
    nextWith c it = nextWith c' it := by
  unfold nextWith
  split
  · rfl
  · refine bind_congr fun tag => ?_
    cases CType.fromU8 tag with
    | none => rfl
    | some valType =>
      refine bind_congr fun span => ?_
      obtain ⟨offset, valLength⟩ := span
      simp only
      split
      · rfl
      · cases hd : slice it.buff offset (offset + valLength) with
        | error e => rfl
        | ok valData =>
          obtain ⟨-, hlen, -⟩ := slice_eq_ok_iff.mp hd
          have hshort : ∀ iter : DecodeIter, iter.buff.length < valData.length →
              c iter = c' iter := fun iter hi =>
            h iter (by rw [length_of_slice hd] at hi; omega)
          simp only [bind, Except.bind, decodeValue_congr hshort]

/-- Everything a call of `next` that hands out a value has read. -/
theorem nextWith_inv {c : DecodeIter → Checked (List Value)} {it it' : DecodeIter} {v : Value}
    (h : nextWith c it = .ok (some v, it')) :
    5 ≤ it.buff.length ∧ it.count ≠ 0 ∧ ∃ tag valType offset valLength valData,
      getAt it.buff 0 = .ok tag ∧ CType.fromU8 tag = some valType ∧
      payloadSpan valType it.buff = .ok (offset, valLength) ∧
      slice it.buff offset (offset + valLength) = .ok valData ∧
      decodeValue c it.lazy valType valLength valData = .ok (some v) ∧
      it' = ⟨it.count - 1, it.buff.drop (valLength + offset), it.lazy⟩ := by
  unfold nextWith at h
  split at h
  · cases h
  · rename_i hgo
    obtain ⟨tag, htag, h⟩ := bind_eq_ok.mp h
    cases hty : CType.fromU8 tag with
    | none => rw [hty] at h; cases h
    | some valType =>
      rw [hty] at h
      obtain ⟨⟨offset, valLength⟩, hspan, h⟩ := bind_eq_ok.mp h
      simp only at h
      split at h
      · cases h
      · obtain ⟨valData, hdata, h⟩ := bind_eq_ok.mp h
        obtain ⟨val, hval, h⟩ := bind_eq_ok.mp h
        cases val with
        | none => cases h
        | some val =>
          obtain ⟨buff, hbuff, h⟩ := bind_eq_ok.mp h
          cases h
          obtain ⟨-, -, rfl⟩ := slice_eq_ok_iff.mp hbuff
          refine ⟨by omega, by omega, tag, valType, offset, valLength, valData, htag, hty, hspan,
            hdata, hval, ?_⟩
          rw [List.take_of_length_le (by simp)]

theorem payloadSpan_offset {valType : CType} {buff : List UInt8} {offset valLength : Nat}
    (h : payloadSpan valType buff = .ok (offset, valLength)) : 1 ≤ offset := by
  unfold payloadSpan at h
  split at h
  · cases h
    exact Nat.le_refl _
  · obtain ⟨_, -, h⟩ := bind_eq_ok.mp h
    obtain ⟨_, -, h⟩ := bind_eq_ok.mp h
    cases h
    omega

/-- A call of `next` that hands out a value leaves fewer bytes. -/
theorem nextWith_shrinks {c : DecodeIter → Checked (List Value)} {it it' : DecodeIter} {v : Value}
    (h : nextWith c it = .ok (some v, it')) : it'.buff.length < it.buff.length := by
  obtain ⟨hlong, -, _, _, offset, valLength, _, -, -, hspan, -, -, rfl⟩ := nextWith_inv h
  have hoff := payloadSpan_offset hspan
  rw [List.length_drop]
  omega

/-- Fuel beyond the bytes left changes nothing. -/
theorem collectFuel_stable : ∀ (n m : Nat) (it : DecodeIter), it.buff.length < n →
    it.buff.length < m → collectFuel n it = collectFuel m it
  | 0, _, _, hn, _ => absurd hn (Nat.not_lt_zero _)
  | _, 0, _, _, hm => absurd hm (Nat.not_lt_zero _)
  | n + 1, m + 1, it, hn, hm => by
      have hnext : nextWith (collectFuel n) it = nextWith (collectFuel m) it :=
        nextWith_congr fun iter hi => collectFuel_stable n m iter (by omega) (by omega)
      simp only [collectFuel]
      rw [hnext]
      cases hr : nextWith (collectFuel m) it with
      | error e => rfl
      | ok r =>
        obtain ⟨_ | v, it'⟩ := r
        · rfl
        · have hlt := nextWith_shrinks hr
          simp only [bind, Except.bind,
            collectFuel_stable n m it' (by omega) (by omega)]

/-- **`collect` is the loop over `next`.** -/
theorem collect_eq (it : DecodeIter) :
    collect it = (do
      match ← it.next with
      | (none, _) => return []
      | (some val, it) => return val :: (← collect it)) := by
  have hnext : nextWith (collectFuel it.buff.length) it = it.next :=
    nextWith_congr fun iter hi => collectFuel_stable _ _ iter hi (Nat.lt_succ_self _)
  rw [collect, collectFuel, hnext]
  cases hr : it.next with
  | error e => rfl
  | ok r =>
    obtain ⟨_ | v, it'⟩ := r
    · rfl
    · have hlt := nextWith_shrinks hr
      simp only [bind, Except.bind, collect,
        collectFuel_stable it.buff.length _ it' hlt (Nat.lt_succ_self _)]

theorem collect_eq_cons {it : DecodeIter} {v : Value} {vs : List Value}
    (h : collect it = .ok (v :: vs)) :
    ∃ it', it.next = .ok (some v, it') ∧ collect it' = .ok vs := by
  rw [collect_eq] at h
  obtain ⟨⟨_ | val, it'⟩, hnext, h⟩ := bind_eq_ok.mp h
  · cases h
  · obtain ⟨rest, hrest, h⟩ := bind_eq_ok.mp h
    cases h
    exact ⟨it', hnext, hrest⟩

/-! ### No bytes make the decoder panic -/

theorem decodeSos_succeeds (buff : List UInt8) (lazy : Bool) : Succeeds (decodeSos buff lazy) := by
  unfold decodeSos
  split
  · exact .pure none
  · rename_i hlong
    refine .bind (slice_succeeds (by omega) (by omega)) fun count hcount => ?_
    refine .bind (readLe_succeeds (by rw [length_of_slice hcount])) fun _ _ => ?_
    refine .bind (slice_succeeds (by omega) (by omega)) fun size hsize => ?_
    refine .bind (readLe_succeeds (by rw [length_of_slice hsize])) fun _ _ => ?_
    split
    · exact .pure none
    · rename_i hsize
      exact .bind (slice_succeeds (by omega) (by omega)) fun _ _ => .pure _

theorem unterminated_succeeds {valLength : Nat} {valData : List UInt8}
    (h : valData.length = valLength) : Succeeds (unterminated valLength valData) := by
  apply slice_succeeds (Nat.zero_le _)
  split <;> omega

theorem decodeFunction_succeeds (vec : List UInt8) : Succeeds (decodeFunction vec) := by
  unfold decodeFunction
  cases hpos : vec.findIdx? (· == 0) with
  | none => exact .pure none
  | some pos =>
    have hlt : pos < vec.length := (List.findIdx?_eq_some_iff_findIdx_eq.mp hpos).1
    refine .bind (slice_succeeds (by omega) (by omega)) fun m _ => ?_
    cases fromUtf8 m with
    | none => exact .pure none
    | some module =>
      refine .bind (slice_succeeds hlt (Nat.le_refl _)) fun n _ => ?_
      cases fromUtf8 n with
      | none => exact .pure none
      | some name => exact .pure _

/-- A payload of the length its type asks for is decoded or refused. -/
theorem decodeValue_succeeds {c : DecodeIter → Checked (List Value)} (hc : ∀ it, Succeeds (c it))
    {lazy : Bool} {valType : CType} {valLength : Nat} {valData : List UInt8}
    (hlen : valData.length = valLength) (hwidth : ∀ w, valType.width = some w → valLength = w) :
    Succeeds (decodeValue c lazy valType valLength valData) := by
  have hword : ∀ w, valType.width = some w → Succeeds (readLe w valData) := by
    intro w hw
    exact readLe_succeeds (by rw [hlen, hwidth w hw])
  cases valType with
  | invalid => exact .pure none
  | int32 => exact .bind (hword 4 rfl) fun _ _ => .pure _
  | uint32 => exact .bind (hword 4 rfl) fun _ _ => .pure _
  | int64 => exact .bind (hword 8 rfl) fun _ _ => .pure _
  | uint64 => exact .bind (hword 8 rfl) fun _ _ => .pure _
  | float => exact .bind (hword 4 rfl) fun _ _ => .pure _
  | double => exact .bind (hword 8 rfl) fun _ _ => .pure _
  | string => exact .bind (unterminated_succeeds hlen) fun _ _ => .pure _
  | error => exact .bind (unterminated_succeeds hlen) fun _ _ => .pure _
  | opaqueBytes =>
    exact .bind (slice_succeeds (Nat.zero_le _) (Nat.le_of_eq hlen.symm)) fun _ _ => .pure _
  | function =>
    exact .bind (unterminated_succeeds hlen) fun vec _ => decodeFunction_succeeds vec
  | embedded =>
    refine .bind (decodeSos_succeeds valData lazy) fun iter _ => ?_
    cases iter with
    | none => exact .pure none
    | some iter =>
      cases lazy with
      | true => exact .pure _
      | false => exact .bind (hc iter) fun _ _ => .pure _

theorem nextWith_succeeds {c : DecodeIter → Checked (List Value)} (hc : ∀ it, Succeeds (c it))
    (it : DecodeIter) : Succeeds (nextWith c it) := by
  unfold nextWith
  split
  · exact .pure _
  · rename_i hgo
    refine .bind (getAt_succeeds (by omega)) fun tag _ => ?_
    cases CType.fromU8 tag with
    | none => exact .pure _
    | some valType =>
      have hspan : Succeeds (payloadSpan valType it.buff) := by
        unfold payloadSpan
        cases valType.width with
        | some w => exact .pure _
        | none =>
          refine .bind (slice_succeeds (by omega) (by omega)) fun word hword => ?_
          exact .bind (readLe_succeeds (by rw [length_of_slice hword])) fun _ _ => .pure _
      refine .bind hspan fun span hspan => ?_
      obtain ⟨offset, valLength⟩ := span
      simp only
      split
      · exact .pure _
      · rename_i hroom
        refine .bind (slice_succeeds (by omega) (by omega)) fun valData hdata => ?_
        have hlen : valData.length = valLength := by rw [length_of_slice hdata]; omega
        have hwidth : ∀ w, valType.width = some w → valLength = w := by
          intro w hw
          rw [payloadSpan, hw] at hspan
          cases hspan
          rfl
        refine .bind (decodeValue_succeeds hc hlen hwidth) fun val _ => ?_
        cases val with
        | none => exact .pure _
        | some val =>
          exact .bind (slice_succeeds (by omega) (Nat.le_refl _)) fun _ _ => .pure _

theorem collectFuel_succeeds : ∀ (fuel : Nat) (it : DecodeIter), Succeeds (collectFuel fuel it)
  | 0, _ => .pure []
  | fuel + 1, it => by
      refine .bind (nextWith_succeeds (collectFuel_succeeds fuel) it) fun r _ => ?_
      obtain ⟨_ | val, it'⟩ := r
      · exact .pure []
      · exact .bind (collectFuel_succeeds fuel it') fun _ _ => .pure _

/-- **Decoding never panics.** -/
theorem next_succeeds (it : DecodeIter) : Succeeds it.next :=
  nextWith_succeeds (fun it => collectFuel_succeeds _ it) it

/-- `n` calls of `next`, one after another. -/
def DecodeIter.nextTimes (it : DecodeIter) : Nat → Checked DecodeIter
  | 0 => return it
  | n + 1 => do (← it.next).2.nextTimes n

end Faastr.Sos
