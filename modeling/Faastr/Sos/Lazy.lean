import Faastr.Sos.Layout
import Mathlib.Data.List.Forall2

/-!
Lazy and eager decoding.

A lazy iterator hands out an embedded message as an iterator of its own; an eager one
decodes it on the spot. `Replaced v w` says that `w` is `v` with every iterator replaced
by the list of what it yields, to any depth.

* `next_agree`: the two call `next` in step, and go on from the same bytes.
* `lazy_eager_agree`: one accepts a message exactly if the other does, and the values of
  the eager one are those of the lazy one, replaced.
-/

namespace Faastr.Sos

open Faastr.Lib

/-- The value with every iterator in it replaced by what it yields. -/
inductive Replaced : Value → Value → Prop
  | embeddedOut {it : DecodeIter} {vs ws : List Value} (yields : collect it = .ok vs)
      (all : List.Forall₂ Replaced vs ws) : Replaced (.embeddedOut it) (.embeddedVec ws)
  | other {v : Value} (h : ∀ it, v ≠ .embeddedOut it) : Replaced v v

mutual

/-- There is one way to replace. -/
theorem Replaced.unique : ∀ {v w w' : Value}, Replaced v w → Replaced v w' → w = w'
  | _, _, _, .embeddedOut hvs hall, .embeddedOut hvs' hall' => by
      cases hvs.symm.trans hvs'
      rw [replacedAll_unique hall hall']
  | _, _, _, .embeddedOut _ _, .other h => absurd rfl (h _)
  | _, _, _, .other h, .embeddedOut _ _ => absurd rfl (h _)
  | _, _, _, .other _, .other _ => rfl

theorem replacedAll_unique : ∀ {vs ws ws' : List Value}, List.Forall₂ Replaced vs ws →
    List.Forall₂ Replaced vs ws' → ws = ws'
  | _, _, _, .nil, .nil => rfl
  | _, _, _, .cons h hs, .cons h' hs' => by rw [h.unique h', replacedAll_unique hs hs']

end

/-- Nothing is replaced by a value that is no list. -/
theorem Replaced.eq_of_flat {v w : Value} (h : Replaced v w)
    (hflat : ∀ ws, w ≠ .embeddedVec ws) : v = w := by
  cases h with
  | embeddedOut => exact absurd rfl (hflat _)
  | other => rfl

/-- The iterator that decodes eagerly. -/
def DecodeIter.eager (it : DecodeIter) : DecodeIter := { it with lazy := false }

/-- The lazy iterator and the eager one yield lists that agree. -/
def Agree (it : DecodeIter) : Prop :=
  ∃ vs ws, collect it = .ok vs ∧ collect it.eager = .ok ws ∧ List.Forall₂ Replaced vs ws

theorem decodeSos_eager (b : List UInt8) :
    decodeSos b false = (decodeSos b true).map (Option.map DecodeIter.eager) := by
  rw [decodeSos_eq, decodeSos_eq]
  split
  · rfl
  · rfl

theorem decodeFunction_ctype {vec : List UInt8} {v : Value}
    (h : decodeFunction vec = .ok (some v)) : v.ctype = .function := by
  unfold decodeFunction at h
  split at h
  · cases h
  · obtain ⟨_, -, h⟩ := bind_eq_ok.mp h
    split at h
    · cases h
    · obtain ⟨_, -, h⟩ := bind_eq_ok.mp h
      split at h
      · cases h
      · cases h
        rfl

/-- Only an embedded message is decoded lazily or eagerly. -/
theorem decodeValue_of_ne {c : DecodeIter → Checked (List Value)} {valType : CType}
    {valLength : Nat} {valData : List UInt8} (h : valType ≠ .embedded) :
    decodeValue c true valType valLength valData = decodeValue c false valType valLength valData := by
  cases valType with
  | embedded => exact absurd rfl h
  | _ => rfl

theorem decodeValue_not_embedded {c : DecodeIter → Checked (List Value)} {lazy : Bool}
    {valType : CType} {valLength : Nat} {valData : List UInt8} {v : Value} (hne : valType ≠ .embedded)
    (h : decodeValue c lazy valType valLength valData = .ok (some v)) (it : DecodeIter) :
    v ≠ .embeddedOut it := by
  rintro rfl
  cases valType with
  | embedded => exact hne rfl
  | invalid => cases h
  | function =>
    obtain ⟨vec, -, h⟩ := bind_eq_ok.mp h
    cases decodeFunction_ctype h
  | string | error =>
    obtain ⟨vec, -, h⟩ := bind_eq_ok.mp h
    obtain ⟨s, -, hs⟩ := Option.map_eq_some_iff.mp (Except.ok.inj h)
    cases hs
  | int32 | uint32 | int64 | uint64 | float | double | opaqueBytes =>
    obtain ⟨_, -, h⟩ := bind_eq_ok.mp h
    cases h

/-- The embedded messages of a payload are shorter than it, so that they agree; then
the payload is refused by both, or spells values that agree. -/
theorem decodeValue_agree {valType : CType} {valLength : Nat} {valData : List UInt8}
    (hagree : ∀ iter : DecodeIter, iter.buff.length < valData.length → iter.lazy = true → Agree iter)
    {o o' : Option Value} (h : decodeValue collect true valType valLength valData = .ok o)
    (h' : decodeValue collect false valType valLength valData = .ok o') :
    Option.Rel Replaced o o' := by
  by_cases hty : valType = .embedded
  · subst hty
    unfold decodeValue at h h'
    obtain ⟨r, hr, h⟩ := bind_eq_ok.mp h
    obtain ⟨r', hr', h'⟩ := bind_eq_ok.mp h'
    rw [decodeSos_eager, hr] at hr'
    cases hr'
    cases r with
    | none =>
      cases h
      cases h'
      exact .none
    | some it =>
      obtain ⟨vs, ws, hvs, hws, hall⟩ := hagree it (decodeSos_shrinks hr) (decodeSos_lazy hr)
      cases h
      obtain ⟨ws', hws', h'⟩ := bind_eq_ok.mp h'
      cases hws.symm.trans hws'
      cases h'
      exact .some (.embeddedOut hvs hall)
  · rw [← decodeValue_of_ne hty] at h'
    cases h.symm.trans h'
    cases o with
    | none => exact .none
    | some v => exact .some (.other (decodeValue_not_embedded hty h))

/-- Two results of `next` that agree: what they hand out, and where they go on. -/
structure NextAgree (r r' : Option Value × DecodeIter) : Prop where
  value : Option.Rel Replaced r.1 r'.1
  rest : r'.2 = r.2.eager

/-- The lazy iterator and the eager one hand out values that agree, and go on from the
same bytes. -/
theorem next_agree {it : DecodeIter} (hlazy : it.lazy = true)
    (hagree : ∀ iter : DecodeIter, iter.buff.length < it.buff.length → iter.lazy = true → Agree iter)
    {r r' : Option Value × DecodeIter} (h : it.next = .ok r) (h' : it.eager.next = .ok r') :
    NextAgree r r' := by
  obtain ⟨count, buff, lazy⟩ := it
  cases hlazy
  have h : nextWith collect ⟨count, buff, true⟩ = .ok r := h
  have h' : nextWith collect ⟨count, buff, false⟩ = .ok r' := h'
  unfold nextWith at h h'
  dsimp only at h h' hagree
  split at h
  · next hend =>
    rw [if_pos hend] at h'
    cases h
    cases h'
    exact ⟨.none, rfl⟩
  · next hend =>
    rw [if_neg hend] at h'
    obtain ⟨tag, htag, h⟩ := bind_eq_ok.mp h
    obtain ⟨tag', htag', h'⟩ := bind_eq_ok.mp h'
    cases htag.symm.trans htag'
    cases hty : CType.fromU8 tag with
    | none =>
      rw [hty] at h h'
      cases h
      cases h'
      exact ⟨.none, rfl⟩
    | some valType =>
      rw [hty] at h h'
      obtain ⟨⟨offset, valLength⟩, hspan, h⟩ := bind_eq_ok.mp h
      obtain ⟨_, hspan', h'⟩ := bind_eq_ok.mp h'
      cases hspan.symm.trans hspan'
      dsimp only at h h'
      split at h
      · next hshort =>
        rw [if_pos hshort] at h'
        cases h
        cases h'
        exact ⟨.none, rfl⟩
      · next hshort =>
        rw [if_neg hshort] at h'
        obtain ⟨valData, hdata, h⟩ := bind_eq_ok.mp h
        obtain ⟨_, hdata', h'⟩ := bind_eq_ok.mp h'
        cases hdata.symm.trans hdata'
        obtain ⟨o, ho, h⟩ := bind_eq_ok.mp h
        obtain ⟨o', ho', h'⟩ := bind_eq_ok.mp h'
        have hlength := length_of_slice hdata
        obtain ⟨-, hfits, -⟩ := slice_eq_ok_iff.mp hdata
        have hrel := decodeValue_agree (fun iter hlt => hagree iter (by omega)) ho ho'
        cases hrel with
        | none =>
          cases h
          cases h'
          exact ⟨.none, rfl⟩
        | some hvw =>
          obtain ⟨rest, hrest, h⟩ := bind_eq_ok.mp h
          obtain ⟨_, hrest', h'⟩ := bind_eq_ok.mp h'
          cases hrest.symm.trans hrest'
          cases h
          cases h'
          exact ⟨.some hvw, rfl⟩

/-- By induction over the bytes left, for an embedded message has fewer and so has the
rest of the list. -/
theorem agree_of_length : ∀ (n : Nat) (it : DecodeIter), it.buff.length < n → it.lazy = true → Agree it
  | 0, _, hn, _ => absurd hn (Nat.not_lt_zero _)
  | n + 1, it, hn, hlazy => by
      obtain ⟨⟨o, it'⟩, hnext⟩ := next_succeeds it
      obtain ⟨⟨o', it''⟩, hnext'⟩ := next_succeeds it.eager
      obtain ⟨hvalue, rfl⟩ := next_agree hlazy
        (fun iter hlt => agree_of_length n iter (by omega)) hnext hnext'
      unfold Agree
      rw [collect_eq it, hnext, collect_eq it.eager, hnext']
      cases hvalue with
      | none => exact ⟨[], [], rfl, rfl, .nil⟩
      | some hvw =>
        have hlt : it'.buff.length < it.buff.length := nextWith_shrinks hnext
        have hlazy' : it'.lazy = true := by
          obtain ⟨-, -, _, _, _, _, _, -, -, -, -, -, rfl⟩ := nextWith_inv hnext
          exact hlazy
        obtain ⟨vs, ws, hvs, hws, hall⟩ := agree_of_length n it' (by omega) hlazy'
        refine ⟨_ :: vs, _ :: ws, ?_, ?_, .cons hvw hall⟩
        · simp only [bind, Except.bind, hvs]
          rfl
        · simp only [bind, Except.bind, hws]
          rfl

/-- **Lazy and eager decoding agree.** A message is accepted by both or by neither, and
the values of the eager iterator are those of the lazy one with every iterator among them
replaced by what it yields. -/
theorem lazy_eager_agree (b : List UInt8) :
    (decodeSos b true = .ok none ∧ decodeSos b false = .ok none) ∨
    ∃ it it' vs ws, decodeSos b true = .ok (some it) ∧ decodeSos b false = .ok (some it') ∧
      collect it = .ok vs ∧ collect it' = .ok ws ∧ List.Forall₂ Replaced vs ws ∧
      ∀ ws', List.Forall₂ Replaced vs ws' → ws = ws' := by
  obtain ⟨o, ho⟩ := decodeSos_succeeds b true
  have ho' : decodeSos b false = .ok (o.map DecodeIter.eager) := by
    rw [decodeSos_eager, ho]
    rfl
  cases o with
  | none => exact .inl ⟨ho, ho'⟩
  | some it =>
    obtain ⟨vs, ws, hvs, hws, hall⟩ :=
      agree_of_length _ it (Nat.lt_succ_self _) (decodeSos_lazy ho)
    exact .inr ⟨it, it.eager, vs, ws, ho, ho', hvs, hws, hall, fun ws' => replacedAll_unique hall⟩

end Faastr.Sos
