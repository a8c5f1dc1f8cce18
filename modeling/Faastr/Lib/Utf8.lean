import Mathlib.Data.List.Basic

/-!
UTF-8 as lists of bytes.

`encode` is the bytes of a list of characters and `decode` reads them back, if
they are UTF-8; they are inverse to each other (`decode_encode`,
`encode_of_decode`). A byte below 128 is a character of its own and no byte of
another, so exactly these bytes may be replaced by one another (`set_ascii`,
`decode_set_eq_none`).
-/

namespace Faastr.Lib.Utf8

def encode (s : List Char) : List UInt8 := s.flatMap String.utf8EncodeChar

def decode (b : List UInt8) : Option (List Char) := b.toByteArray.utf8Decode?.map Array.toList

@[simp] theorem encode_nil : encode [] = [] := rfl

@[simp] theorem encode_cons (c : Char) (s : List Char) :
    encode (c :: s) = String.utf8EncodeChar c ++ encode s := rfl

@[simp] theorem encode_append (s t : List Char) : encode (s ++ t) = encode s ++ encode t :=
  List.flatMap_append

theorem decode_encode (s : List Char) : decode (encode s) = some s := by
  have h := List.utf8Decode?_utf8Encode (l := s)
  rw [List.utf8Encode] at h
  rw [decode, encode, h]
  simp

theorem encode_of_decode {b : List UInt8} {s : List Char} (h : decode b = some s) :
    encode s = b := by
  obtain ⟨chars, hdecode, rfl⟩ := Option.map_eq_some_iff.mp h
  have hsome : b.toByteArray.utf8Decode?.isSome = true := by rw [hdecode]; rfl
  have hencode := ByteArray.utf8Encode_get_utf8Decode? (h := hsome)
  simp only [hdecode, Option.get_some] at hencode
  exact List.toByteArray_inj.mp hencode

/-- Bytes that go on behind an encoded text go on behind its characters. -/
theorem exists_append_of_encode {s t : List Char} {b : List UInt8} (h : encode s = encode t ++ b) :
    ∃ s', s = t ++ s' ∧ encode s' = b := by
  have hbytes : t.utf8Encode ++ b.toByteArray = s.utf8Encode := by
    rw [List.utf8Encode, List.utf8Encode, ← List.toByteArray_append]
    exact congrArg List.toByteArray h.symm
  obtain ⟨s', rfl⟩ := List.isPrefix_of_utf8Encode_append_eq_utf8Encode _ hbytes
  refine ⟨s', rfl, ?_⟩
  rw [encode_append] at h
  exact List.append_cancel_left h

/-! ### The bytes of a character -/

/-- A character is one byte below 128, or a byte from 192 on and others between
128 and 192. -/
theorem utf8EncodeChar_cases (c : Char) :
    (∃ b, String.utf8EncodeChar c = [b] ∧ b.toNat < 128) ∨
    ∃ b x rest, String.utf8EncodeChar c = b :: x :: rest ∧ 192 ≤ b.toNat ∧
      ∀ y ∈ x :: rest, 128 ≤ y.toNat ∧ y.toNat < 192 := by
  have htail : ∀ n : Nat, 128 ≤ (UInt8.ofNat (n % 64 + 128)).toNat ∧
      (UInt8.ofNat (n % 64 + 128)).toNat < 192 := by
    intro n
    rw [UInt8.toNat_ofNat']
    omega
  rw [String.utf8EncodeChar.eq_1]
  split
  · left
    refine ⟨_, rfl, ?_⟩
    rw [UInt8.toNat_ofNat']
    omega
  · right
    split
    · refine ⟨_, _, _, rfl, ?_, ?_⟩
      · rw [UInt8.toNat_ofNat']
        omega
      · simp only [List.mem_singleton, forall_eq]
        exact htail _
    · split
      · refine ⟨_, _, _, rfl, ?_, ?_⟩
        · rw [UInt8.toNat_ofNat']
          omega
        · simp only [List.mem_cons, List.not_mem_nil, or_false, forall_eq_or_imp, forall_eq]
          exact ⟨htail _, htail _⟩
      · refine ⟨_, _, _, rfl, ?_, ?_⟩
        · rw [UInt8.toNat_ofNat']
          omega
        · simp only [List.mem_cons, List.not_mem_nil, or_false, forall_eq_or_imp, forall_eq]
          exact ⟨htail _, htail _, htail _⟩

/-- A text does not start with a byte from the middle of a character. -/
theorem first_byte {s : List Char} {b : UInt8} {rest : List UInt8} (h : encode s = b :: rest) :
    b.toNat < 128 ∨ 192 ≤ b.toNat := by
  cases s with
  | nil => cases h
  | cons c s =>
    rw [encode_cons] at h
    rcases utf8EncodeChar_cases c with ⟨x, hc, hx⟩ | ⟨x, y, more, hc, hx, -⟩
    · rw [hc] at h
      cases h
      exact .inl hx
    · rw [hc] at h
      cases h
      exact .inr hx

/-- A byte below 128 is a character of the text. -/
theorem exists_of_ascii {s : List Char} {i : Nat} {b : UInt8} (h : (encode s)[i]? = some b)
    (hb : b.toNat < 128) :
    ∃ s₁ c s₂, s = s₁ ++ c :: s₂ ∧ (encode s₁).length = i ∧ String.utf8EncodeChar c = [b] := by
  induction s generalizing i with
  | nil => simp at h
  | cons c s ih =>
    rw [encode_cons] at h
    rcases Nat.lt_or_ge i (String.utf8EncodeChar c).length with hi | hi
    · rw [List.getElem?_append_left hi] at h
      rcases utf8EncodeChar_cases c with ⟨x, hc, -⟩ | ⟨x, y, more, hc, hx, hmore⟩
      · rw [hc] at h hi
        obtain rfl : i = 0 := by simpa using hi
        obtain rfl : x = b := by simpa using h
        exact ⟨[], c, s, rfl, rfl, hc⟩
      · rw [hc] at h
        rcases List.mem_cons.mp (List.mem_of_getElem? h) with rfl | hmem
        · omega
        · have := hmore b hmem
          omega
    · rw [List.getElem?_append_right hi] at h
      obtain ⟨s₁, d, s₂, rfl, hlength, hd⟩ := ih h
      refine ⟨c :: s₁, d, s₂, rfl, ?_, hd⟩
      rw [encode_cons, List.length_append, hlength]
      omega

/-! ### Replacing a byte -/

/-- The character of a byte below 128. -/
def asciiChar (b : UInt8) : Char := Char.ofNat b.toNat

theorem utf8EncodeChar_asciiChar {b : UInt8} (h : b.toNat < 128) :
    String.utf8EncodeChar (asciiChar b) = [b] := by
  have hval : (asciiChar b).val.toNat = b.toNat := by
    have hvalid : b.toNat.isValidChar := .inl (by omega)
    rw [asciiChar, Char.ofNat, dif_pos hvalid]
    rfl
  rw [String.utf8EncodeChar.eq_1, hval, if_pos (by omega), UInt8.ofNat_toNat]

/-- A byte below 128 may be replaced by another one. -/
theorem set_ascii {s : List Char} {i : Nat} {b v : UInt8} (h : (encode s)[i]? = some b)
    (hb : b.toNat < 128) (hv : v.toNat < 128) : ∃ t, (encode s).set i v = encode t := by
  obtain ⟨s₁, c, s₂, rfl, rfl, hc⟩ := exists_of_ascii h hb
  refine ⟨s₁ ++ asciiChar v :: s₂, ?_⟩
  simp [hc, utf8EncodeChar_asciiChar hv]

/-- No other byte may be replaced by one below 128. -/
theorem decode_set_eq_none {s : List Char} {i : Nat} {b v : UInt8} (h : (encode s)[i]? = some b)
    (hb : 128 ≤ b.toNat) (hv : v.toNat < 128) : decode ((encode s).set i v) = none := by
  by_contra hdecode
  obtain ⟨t, ht⟩ := Option.ne_none_iff_exists'.mp hdecode
  have hencode : encode t = (encode s).set i v := encode_of_decode ht
  have hi : i < (encode s).length := (List.getElem?_eq_some_iff.mp h).1
  -- the new byte is a character, and what stands on both sides of it is text
  have hnew : (encode t)[i]? = some v := by rw [hencode, List.getElem?_set_self hi]
  obtain ⟨t₁, c, t₂, rfl, rfl, hc⟩ := exists_of_ascii hnew hv
  have hold : encode s = encode t₁ ++ b :: encode t₂ := by
    have hset : encode s = (encode (t₁ ++ c :: t₂)).set (encode t₁).length b := by
      rw [hencode, List.set_set, ← (List.getElem?_eq_some_iff.mp h).2, List.set_getElem_self]
    rw [hset]
    simp [hc]
  obtain ⟨s', -, hs'⟩ := exists_append_of_encode hold
  cases s' with
  | nil => cases hs'
  | cons d s' =>
    rw [encode_cons] at hs'
    rcases utf8EncodeChar_cases d with ⟨x, hd, hx⟩ | ⟨x, y, more, hd, -, hmore⟩
    · rw [hd] at hs'
      obtain rfl : x = b := (List.cons.inj hs').1
      omega
    · rw [hd] at hs'
      have hrest : encode t₂ = y :: (more ++ encode s') := by
        simpa using (List.cons.inj hs').2.symm
      have hy := hmore y List.mem_cons_self
      rcases first_byte hrest with hlt | hge <;> omega

end Faastr.Lib.Utf8
