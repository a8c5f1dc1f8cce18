import Faastr.Sos.Decode

/-!
Where decoded values lie: the decoder on bytes that nobody vouches for.

`LaidOut b lo hi vs` says that the values `vs` were read one after another off `b[lo..hi]`.
The tag at the beginning of a value and the length word after it say where its payload is
(`payloadBounds`); the next value begins where the payload ends, and what a value hands
out lies inside its payload, embedded messages to any depth included (`ReadFrom`).

* `decodeSos_eq`: when a message is accepted.
* `next_within`: one call of `next`.
* `decoder_safe`: every call of `next` on every iterator that comes out of any bytes
  returns, hands out no more values than announced, and hands them out of where they lie.
-/

namespace Faastr.Sos

open Faastr.Lib

/-- The number of values that a message announces. -/
def countWord (b : List UInt8) (lo : Nat) : Nat := leNat (cut b lo (lo + 4))

/-- The size that a message says it has. -/
def sizeWord (b : List UInt8) (lo : Nat) : Nat := leNat (cut b (lo + 4) (lo + 8))

/-- Where the payload of the value at `lo` begins and ends. -/
def payloadBounds (b : List UInt8) (lo : Nat) : Option (Nat × Nat) :=
  (b[lo]?.bind CType.fromU8).map fun valType =>
    match valType.width with
    | some w => (lo + 1, lo + 1 + w)
    | none => (lo + 5, lo + 5 + leNat (cut b (lo + 1) (lo + 5)))

/-- The bytes of the iterator are `b[lo..hi]`. -/
structure Within (b : List UInt8) (lo hi : Nat) (it : DecodeIter) : Prop where
  le : lo ≤ hi
  inside : hi ≤ b.length
  buff : it.buff = cut b lo hi

mutual

/-- What the value hands out lies inside `b[lo..hi]`. -/
inductive ReadFrom (b : List UInt8) : Nat → Nat → Value → Prop
  | number {lo hi : Nat} {v : Value} (fixed : v.ctype.width = some (hi - lo))
      (bytes : v.payload = cut b lo hi) : ReadFrom b lo hi v
  | string {lo hi n : Nat} {s : String} (inside : lo + n ≤ hi)
      (bytes : utf8 s = cut b lo (lo + n)) : ReadFrom b lo hi (.string s)
  | error {lo hi n : Nat} {s : String} (inside : lo + n ≤ hi)
      (bytes : utf8 s = cut b lo (lo + n)) : ReadFrom b lo hi (.error s)
  | opaqueBytes {lo hi : Nat} : ReadFrom b lo hi (.opaqueBytes (cut b lo hi))
  | function {lo hi m n : Nat} {f : Function} (inside : lo + m + 1 + n ≤ hi)
      (module : utf8 f.module = cut b lo (lo + m))
      (name : utf8 f.name = cut b (lo + m + 1) (lo + m + 1 + n)) : ReadFrom b lo hi (.function f)
  | embeddedOut {lo hi : Nat} {it : DecodeIter} (inside : lo + sizeWord b lo ≤ hi)
      (count : it.count = countWord b lo) (body : Within b (lo + 8) (lo + sizeWord b lo) it) :
      ReadFrom b lo hi (.embeddedOut it)
  | embeddedVec {lo hi : Nat} {vs : List Value} (inside : lo + sizeWord b lo ≤ hi)
      (count : vs.length ≤ countWord b lo) (body : LaidOut b (lo + 8) (lo + sizeWord b lo) vs) :
      ReadFrom b lo hi (.embeddedVec vs)

/-- The values lie one after another in `b[lo..hi]`. -/
inductive LaidOut (b : List UInt8) : Nat → Nat → List Value → Prop
  | nil {lo hi : Nat} : LaidOut b lo hi []
  | cons {lo p q hi : Nat} {v : Value} {vs : List Value} (bounds : payloadBounds b lo = some (p, q))
      (behind : lo < p) (inside : p ≤ q ∧ q ≤ hi) (value : ReadFrom b p q v)
      (rest : LaidOut b q hi vs) : LaidOut b lo hi (v :: vs)

end

/-! ### Accepting a message -/

/-- A message is accepted if it has a body at least, and is as long as it says. -/
theorem decodeSos_eq (b : List UInt8) (lazy : Bool) : decodeSos b lazy = .ok
    (if 8 < b.length ∧ 8 ≤ sizeWord b 0 ∧ sizeWord b 0 ≤ b.length then
      some ⟨countWord b 0, cut b 8 (sizeWord b 0), lazy⟩
    else none) := by
  unfold decodeSos
  by_cases hlong : b.length ≤ 8
  · rw [if_pos hlong, if_neg (by omega)]
    rfl
  · have hcount : readLe 4 (cut b 0 4) = .ok (countWord b 0) :=
      readLe_of_length (by rw [length_cut (by omega)])
    have hsize : readLe 4 (cut b 4 8) = .ok (sizeWord b 0) :=
      readLe_of_length (by rw [length_cut (by omega)])
    rw [if_neg hlong, slice_eq_cut (by omega) (by omega), slice_eq_cut (by omega) (by omega)]
    simp only [bind, Except.bind, hcount, hsize]
    by_cases hfits : b.length < sizeWord b 0 ∨ sizeWord b 0 < 8
    · rw [if_pos hfits, if_neg (by omega)]
      rfl
    · rw [if_neg hfits, if_pos (by omega), slice_eq_cut (by omega) (by omega)]
      rfl

theorem decodeSos_lazy {b : List UInt8} {lazy : Bool} {it : DecodeIter}
    (h : decodeSos b lazy = .ok (some it)) : it.lazy = lazy := by
  rw [decodeSos_eq] at h
  split at h
  · cases h
    rfl
  · cases h

/-- The body of an accepted message, which is part of other bytes. -/
theorem decodeSos_within {b : List UInt8} {lo hi : Nat} {lazy : Bool} {it : DecodeIter}
    (hle : lo ≤ hi) (hhi : hi ≤ b.length) (h : decodeSos (cut b lo hi) lazy = .ok (some it)) :
    it.count = countWord b lo ∧ lo + sizeWord b lo ≤ hi ∧
      Within b (lo + 8) (lo + sizeWord b lo) it := by
  rw [decodeSos_eq] at h
  split at h
  · next hfits =>
    cases h
    have hlength : (cut b lo hi).length = hi - lo := length_cut hhi
    have hcount : countWord (cut b lo hi) 0 = countWord b lo :=
      congrArg leNat (cut_cut (by omega))
    have hsize : sizeWord (cut b lo hi) 0 = sizeWord b lo :=
      congrArg leNat (cut_cut (by omega))
    rw [hsize, hlength] at hfits
    rw [hcount, hsize]
    refine ⟨rfl, by omega, by omega, by omega, ?_⟩
    exact cut_cut (by omega)
  · cases h

/-! ### Reading a payload -/

section Payload

variable {b : List UInt8} {lo hi : Nat}

/-- A NUL-terminated payload hands out all bytes but the last. -/
theorem unterminated_cut (hle : lo ≤ hi) (hhi : hi ≤ b.length) :
    unterminated (hi - lo) (cut b lo hi) = .ok (cut b lo (lo + (hi - lo - 1))) := by
  have hn : (if hi - lo = 0 then 0 else hi - lo - 1) = hi - lo - 1 := by
    split
    · omega
    · rfl
  rw [unterminated, hn, slice_eq_cut (Nat.zero_le _) (by rw [length_cut hhi]; omega),
    cut_cut (by omega)]
  rfl

theorem decodeFunction_readFrom {n : Nat} {v : Value} (hn : lo + n ≤ hi) (hhi : hi ≤ b.length)
    (h : decodeFunction (cut b lo (lo + n)) = .ok (some v)) : ReadFrom b lo hi v := by
  have hlength : (cut b lo (lo + n)).length = n := by
    rw [length_cut (by omega)]
    omega
  unfold decodeFunction at h
  split at h
  · cases h
  · next pos hpos =>
    have hlt : pos < n := hlength ▸ (List.findIdx?_eq_some_iff_findIdx_eq.mp hpos).1
    rw [hlength, slice_eq_cut (by omega) (by rw [hlength]; omega),
      slice_eq_cut (by omega) (by rw [hlength]), cut_cut (by omega), cut_cut (by omega)] at h
    simp only [bind, Except.bind] at h
    split at h
    · cases h
    · next module hmodule =>
      split at h
      · cases h
      · next name hname =>
        cases h
        refine .function (m := pos) (n := n - pos - 1) (by omega) (utf8_of_fromUtf8 hmodule) ?_
        rw [utf8_of_fromUtf8 hname, Nat.add_assoc lo pos 1,
          show lo + (pos + 1) + (n - pos - 1) = lo + n by omega]

/-- The bytes of a word are those it was read from. -/
theorem leBytes_uint32 {bs : List UInt8} (h : bs.length = 4) :
    leBytes 4 (UInt32.ofNat (leNat bs)).toNat = bs := by
  have hlt := leNat_lt bs
  rw [h] at hlt
  rw [UInt32.toNat_ofNat_of_lt' hlt, ← h, leBytes_leNat]

theorem leBytes_uint64 {bs : List UInt8} (h : bs.length = 8) :
    leBytes 8 (UInt64.ofNat (leNat bs)).toNat = bs := by
  have hlt := leNat_lt bs
  rw [h] at hlt
  rw [UInt64.toNat_ofNat_of_lt' hlt, ← h, leBytes_leNat]

theorem decodeValue_readFrom {c : DecodeIter → Checked (List Value)} {lazy : Bool} {valType : CType}
    {v : Value} (hle : lo ≤ hi) (hhi : hi ≤ b.length)
    (hwidth : ∀ w, valType.width = some w → hi - lo = w)
    (hc : ∀ iter lo' hi', iter.buff.length < hi - lo → Within b lo' hi' iter →
      ∃ vs, c iter = .ok vs ∧ vs.length ≤ iter.count ∧ LaidOut b lo' hi' vs)
    (h : decodeValue c lazy valType (hi - lo) (cut b lo hi) = .ok (some v)) : ReadFrom b lo hi v := by
  have hlength : (cut b lo hi).length = hi - lo := length_cut hhi
  have hword : ∀ w, valType.width = some w → readLe w (cut b lo hi) = .ok (leNat (cut b lo hi)) :=
    fun w hw => readLe_of_length (hlength.trans (hwidth w hw))
  have hterminated := unterminated_cut hle hhi
  cases valType with
  | invalid => cases h
  | int32 =>
    rw [decodeValue, hword 4 rfl] at h
    cases h
    refine .number (congrArg some (hwidth 4 rfl).symm) ?_
    exact leBytes_uint32 (hlength.trans (hwidth 4 rfl))
  | uint32 =>
    rw [decodeValue, hword 4 rfl] at h
    cases h
    refine .number (congrArg some (hwidth 4 rfl).symm) ?_
    exact leBytes_uint32 (hlength.trans (hwidth 4 rfl))
  | int64 =>
    rw [decodeValue, hword 8 rfl] at h
    cases h
    refine .number (congrArg some (hwidth 8 rfl).symm) ?_
    exact leBytes_uint64 (hlength.trans (hwidth 8 rfl))
  | uint64 =>
    rw [decodeValue, hword 8 rfl] at h
    cases h
    refine .number (congrArg some (hwidth 8 rfl).symm) ?_
    exact leBytes_uint64 (hlength.trans (hwidth 8 rfl))
  | float =>
    rw [decodeValue, hword 4 rfl] at h
    cases h
    refine .number (congrArg some (hwidth 4 rfl).symm) ?_
    exact leBytes_uint32 (hlength.trans (hwidth 4 rfl))
  | double =>
    rw [decodeValue, hword 8 rfl] at h
    cases h
    refine .number (congrArg some (hwidth 8 rfl).symm) ?_
    exact leBytes_uint64 (hlength.trans (hwidth 8 rfl))
  | string =>
    rw [decodeValue, hterminated] at h
    obtain ⟨s, hs, rfl⟩ := Option.map_eq_some_iff.mp (Except.ok.inj h)
    exact .string (by omega) (utf8_of_fromUtf8 hs)
  | error =>
    rw [decodeValue, hterminated] at h
    obtain ⟨s, hs, rfl⟩ := Option.map_eq_some_iff.mp (Except.ok.inj h)
    exact .error (by omega) (utf8_of_fromUtf8 hs)
  | opaqueBytes =>
    rw [decodeValue, slice_eq_cut (Nat.zero_le _) (Nat.le_of_eq hlength.symm)] at h
    cases h
    rw [cut_cut (by omega), show lo + (hi - lo) = hi by omega]
    exact .opaqueBytes
  | function =>
    rw [decodeValue, hterminated] at h
    exact decodeFunction_readFrom (by omega) hhi h
  | embedded =>
    unfold decodeValue at h
    obtain ⟨o, ho, h⟩ := bind_eq_ok.mp h
    cases o with
    | none => cases h
    | some it =>
      obtain ⟨hcount, hinside, hbody⟩ := decodeSos_within hle hhi ho
      cases lazy with
      | true =>
        cases h
        exact .embeddedOut hinside hcount hbody
      | false =>
        obtain ⟨vs, hvs, h⟩ := bind_eq_ok.mp h
        cases h
        have hshort := decodeSos_shrinks ho
        rw [hlength] at hshort
        obtain ⟨vs', hvs', hle', hlaid⟩ := hc it _ _ hshort hbody
        cases hvs.symm.trans hvs'
        exact .embeddedVec hinside (hcount ▸ hle') hlaid

end Payload

/-! ### Calls of `next` -/

/-- A call of `next` that hands out nothing leaves the iterator as it is. -/
theorem nextWith_none {c : DecodeIter → Checked (List Value)} {it it' : DecodeIter}
    (h : nextWith c it = .ok (none, it')) : it' = it := by
  unfold nextWith at h
  split at h
  · cases h
    rfl
  · obtain ⟨tag, -, h⟩ := bind_eq_ok.mp h
    split at h
    · cases h
      rfl
    · obtain ⟨⟨offset, valLength⟩, -, h⟩ := bind_eq_ok.mp h
      dsimp only at h
      split at h
      · cases h
        rfl
      · obtain ⟨valData, -, h⟩ := bind_eq_ok.mp h
        obtain ⟨val, -, h⟩ := bind_eq_ok.mp h
        cases val with
        | none =>
          cases h
          rfl
        | some v =>
          obtain ⟨buff, -, h⟩ := bind_eq_ok.mp h
          cases h

section Within

variable {b : List UInt8} {lo hi : Nat} {it it' : DecodeIter}

/-- The payload is where the tag and the length word say. -/
theorem Within.payloadBounds {tag : UInt8} {valType : CType} {offset valLength : Nat}
    (h : Within b lo hi it) (hlong : 5 ≤ it.buff.length) (htag : getAt it.buff 0 = .ok tag)
    (hty : CType.fromU8 tag = some valType)
    (hspan : payloadSpan valType it.buff = .ok (offset, valLength)) :
    payloadBounds b lo = some (lo + offset, lo + offset + valLength) := by
  have hlength : it.buff.length = hi - lo := by rw [h.buff, length_cut h.inside]
  have hbyte : b[lo]? = some tag := by
    rw [getAt, h.buff, getElem?_cut (by omega)] at htag
    cases hb : b[lo + 0]? with
    | none =>
      rw [hb] at htag
      cases htag
    | some x =>
      rw [hb] at htag
      cases htag
      rfl
  rw [Sos.payloadBounds, hbyte, Option.bind_some, hty, Option.map_some]
  unfold payloadSpan at hspan
  cases hw : valType.width with
  | some w =>
    rw [hw] at hspan
    cases hspan
    rfl
  | none =>
    have hword : readLe 4 (cut b (lo + 1) (lo + 5)) = .ok (leNat (cut b (lo + 1) (lo + 5))) :=
      readLe_of_length (by
        have hinside := h.inside
        rw [length_cut (by omega)]
        omega)
    rw [hw] at hspan
    simp only [slice_eq_cut (show 1 ≤ 5 by decide) hlong, bind, Except.bind] at hspan
    rw [h.buff, cut_cut (by omega), hword] at hspan
    cases hspan
    rfl

/-- A value that is handed out lies at the front of the bytes left; the iterator goes on
behind it. -/
theorem nextWith_within {c : DecodeIter → Checked (List Value)} {v : Value} (h : Within b lo hi it)
    (hc : ∀ iter lo' hi', iter.buff.length < it.buff.length → Within b lo' hi' iter →
      ∃ vs, c iter = .ok vs ∧ vs.length ≤ iter.count ∧ LaidOut b lo' hi' vs)
    (hnext : nextWith c it = .ok (some v, it')) : ∃ p q, Sos.payloadBounds b lo = some (p, q) ∧
      lo < p ∧ (p ≤ q ∧ q ≤ hi) ∧ ReadFrom b p q v ∧ Within b q hi it' ∧
      it'.count + 1 = it.count := by
  obtain ⟨hlong, hcount, tag, valType, offset, valLength, valData, htag, hty, hspan, hdata, hval, rfl⟩ :=
    nextWith_inv hnext
  have hoffset := payloadSpan_offset hspan
  have hbounds := h.payloadBounds hlong htag hty hspan
  obtain ⟨-, hfits, hcut⟩ := slice_eq_ok_iff.mp hdata
  have hlength : it.buff.length = hi - lo := by rw [h.buff, length_cut h.inside]
  have hin := h.inside
  have hdata' : valData = cut b (lo + offset) (lo + offset + valLength) := by
    rw [hcut, h.buff]
    refine (cut_cut (by omega)).trans ?_
    rw [Nat.add_assoc]
  refine ⟨lo + offset, lo + offset + valLength, hbounds, by omega, by omega, ?_, ⟨by omega, hin, ?_⟩, ?_⟩
  · have hsize : lo + offset + valLength - (lo + offset) = valLength := Nat.add_sub_cancel_left ..
    refine decodeValue_readFrom (by omega) (by omega) (fun w hw => ?_)
      (fun iter lo' hi' hlt => hc iter lo' hi' (by omega)) (by rw [hsize, ← hdata']; exact hval)
    rw [payloadSpan, hw] at hspan
    cases hspan
    exact hsize
  · show it.buff.drop (valLength + offset) = _
    rw [h.buff, drop_cut, Nat.add_comm valLength, Nat.add_assoc]
  · exact Nat.succ_pred hcount

/-- What an iterator yields lies one after another in its bytes. -/
theorem collect_laidOut : ∀ (n lo hi : Nat) (it : DecodeIter), it.buff.length < n →
    Within b lo hi it →
    ∃ vs, collect it = .ok vs ∧ vs.length ≤ it.count ∧ LaidOut b lo hi vs
  | 0, _, _, _, hn, _ => absurd hn (Nat.not_lt_zero _)
  | n + 1, lo, hi, it, hn, h => by
      obtain ⟨⟨o, it'⟩, hnext⟩ := next_succeeds it
      rw [collect_eq, hnext]
      cases o with
      | none => exact ⟨[], rfl, Nat.zero_le _, .nil⟩
      | some v =>
        have hlt : it'.buff.length < it.buff.length := nextWith_shrinks hnext
        obtain ⟨p, q, hbounds, hp, hq, hv, hrest, hcount⟩ := nextWith_within h
          (fun iter lo' hi' hshort => collect_laidOut n lo' hi' iter (by omega)) hnext
        obtain ⟨vs, hvs, hle, hlaid⟩ := collect_laidOut n q hi it' (by omega) hrest
        refine ⟨v :: vs, ?_, ?_, .cons hbounds hp hq hv hlaid⟩
        · simp only [bind, Except.bind, hvs]
          rfl
        · rw [List.length_cons]
          omega

/-- One call of `next`: it hands out nothing, or a value at the front of the bytes. -/
theorem next_within (h : Within b lo hi it) : ∃ o it', it.next = .ok (o, it') ∧
    (o = none ∧ it' = it ∨ ∃ v p q, o = some v ∧ Sos.payloadBounds b lo = some (p, q) ∧
      lo < p ∧ (p ≤ q ∧ q ≤ hi) ∧ ReadFrom b p q v ∧ Within b q hi it' ∧
      it'.count + 1 = it.count) := by
  obtain ⟨⟨o, it'⟩, hnext⟩ := next_succeeds it
  refine ⟨o, it', hnext, ?_⟩
  cases o with
  | none => exact .inl ⟨rfl, nextWith_none hnext⟩
  | some v =>
    obtain ⟨p, q, hv⟩ := nextWith_within h
      (fun iter lo' hi' _ => collect_laidOut (iter.buff.length + 1) lo' hi' iter (Nat.lt_succ_self _)) hnext
    exact .inr ⟨v, p, q, rfl, hv⟩

end Within

/-- `n` calls of `next`: the values that they hand out. -/
def DecodeIter.nexts (it : DecodeIter) : Nat → Checked (List Value × DecodeIter)
  | 0 => return ([], it)
  | n + 1 => do
      match ← it.next with
      | (none, it) => it.nexts n
      | (some v, it) =>
          let (vs, it) ← it.nexts n
          return (v :: vs, it)

/-- Any number of calls of `next`: what they hand out lies one after another, and the
iterator goes on behind it. -/
theorem nexts_within {b : List UInt8} : ∀ (n : Nat) {lo hi : Nat} {it : DecodeIter},
    Within b lo hi it → ∃ vs it' lo', it.nexts n = .ok (vs, it') ∧
      vs.length + it'.count = it.count ∧ lo ≤ lo' ∧ LaidOut b lo lo' vs ∧ Within b lo' hi it'
  | 0, lo, hi, it, h => ⟨[], it, lo, rfl, Nat.zero_add _, Nat.le_refl _, .nil, h⟩
  | n + 1, lo, hi, it, h => by
      obtain ⟨o, it₁, hnext, hcases⟩ := next_within h
      rw [DecodeIter.nexts, hnext]
      rcases hcases with ⟨rfl, rfl⟩ | ⟨v, p, q, rfl, hbounds, hp, hq, hv, hrest, hcount⟩
      · exact nexts_within n h
      · obtain ⟨vs, it', lo', hvs, hlength, hle, hlaid, hlast⟩ := nexts_within n hrest
        refine ⟨v :: vs, it', lo', ?_, ?_, by omega, .cons hbounds hp ⟨hq.1, hle⟩ hv hlaid, hlast⟩
        · simp only [bind, Except.bind, hvs]
          rfl
        · rw [List.length_cons]
          omega

/-! ### Any bytes -/

/-- The iterators that come out of decoding `b`: that of the message, those it goes on
to, and those of messages embedded in it. -/
inductive Reached (b : List UInt8) (lazy : Bool) : DecodeIter → Prop
  | message {it : DecodeIter} (h : decodeSos b lazy = .ok (some it)) : Reached b lazy it
  | next {it it' : DecodeIter} {o : Option Value} (h : Reached b lazy it)
      (hnext : it.next = .ok (o, it')) : Reached b lazy it'
  | embedded {it it' inner : DecodeIter} (h : Reached b lazy it)
      (hnext : it.next = .ok (some (.embeddedOut inner), it')) : Reached b lazy inner

theorem decodeSos_body {b : List UInt8} {lazy : Bool} {it : DecodeIter}
    (h : decodeSos b lazy = .ok (some it)) :
    it.count = countWord b 0 ∧ Within b 8 (sizeWord b 0) it := by
  have hwhole : cut b 0 b.length = b := by simp [cut]
  rw [← hwhole] at h
  obtain ⟨hcount, -, hbody⟩ := decodeSos_within (Nat.zero_le _) (Nat.le_refl _) h
  rw [Nat.zero_add, Nat.zero_add] at hbody
  exact ⟨hcount, hbody⟩

/-- Each of them is on bytes of the body. -/
theorem Reached.within {b : List UInt8} {lazy : Bool} {it : DecodeIter} (h : Reached b lazy it) :
    ∃ lo hi, 8 ≤ lo ∧ hi ≤ sizeWord b 0 ∧ Within b lo hi it := by
  induction h with
  | message hit => exact ⟨8, sizeWord b 0, Nat.le_refl _, Nat.le_refl _, (decodeSos_body hit).2⟩
  | @next it it' o _ hnext ih =>
    obtain ⟨lo, hi, hlo, hhi, hbody⟩ := ih
    obtain ⟨o', it₁, hnext', hcases⟩ := next_within hbody
    cases hnext.symm.trans hnext'
    rcases hcases with ⟨-, rfl⟩ | ⟨v, p, q, -, -, hp, hq, -, hrest, -⟩
    · exact ⟨lo, hi, hlo, hhi, hbody⟩
    · exact ⟨q, hi, by omega, hhi, hrest⟩
  | @embedded it it' inner _ hnext ih =>
    obtain ⟨lo, hi, hlo, hhi, hbody⟩ := ih
    obtain ⟨o', it₁, hnext', hcases⟩ := next_within hbody
    cases hnext.symm.trans hnext'
    rcases hcases with ⟨hno, -⟩ | ⟨v, p, q, hv, -, hp, hq, hread, -⟩
    · cases hno
    · cases hv
      cases hread with
      | number fixed _ => cases fixed
      | embeddedOut inside _ body => exact ⟨p + 8, p + sizeWord b p, by omega, by omega, body⟩

/-- **The decoder is safe on any bytes.** It accepts a message or refuses it; an accepted
message is on `b[8..size]` and has the count that it announces. From then on any number
of calls of `next`, on any iterator that comes out, return: the recursion is no deeper
than the bytes are many, there are no more values than announced, and they lie one after
another in the bytes of the iterator, embedded ones inside the payload of their value. -/
theorem decoder_safe (b : List UInt8) (lazy : Bool) : Succeeds (decodeSos b lazy) ∧
    (∀ it, decodeSos b lazy = .ok (some it) →
      it.count = countWord b 0 ∧ Within b 8 (sizeWord b 0) it) ∧
    ∀ it, Reached b lazy it → (∀ fuel, it.buff.length < fuel → collectFuel fuel it = collect it) ∧
      ∃ lo hi, 8 ≤ lo ∧ hi ≤ sizeWord b 0 ∧ Within b lo hi it ∧ ∀ n, ∃ vs it' lo',
        it.nexts n = .ok (vs, it') ∧ vs.length ≤ it.count ∧ LaidOut b lo lo' vs ∧
        Within b lo' hi it' := by
  refine ⟨decodeSos_succeeds b lazy, fun it => decodeSos_body,
    fun it hreached => ⟨fun fuel hfuel => ?_, ?_⟩⟩
  · exact collectFuel_stable _ _ it hfuel (Nat.lt_succ_self _)
  · obtain ⟨lo, hi, hlo, hhi, hbody⟩ := hreached.within
    refine ⟨lo, hi, hlo, hhi, hbody, fun n => ?_⟩
    obtain ⟨vs, it', lo', hvs, hlength, -, hlaid, hlast⟩ := nexts_within n hbody
    exact ⟨vs, it', lo', hvs, by omega, hlaid, hlast⟩

end Faastr.Sos
