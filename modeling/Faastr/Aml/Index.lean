import Faastr.Aml.Context
import Mathlib.Data.List.Forall2

/-!
Nested AML index references (`get` and `modify` of `acpi/aml/parser.rs`).

`Index(...Index(Index(p, i1), i2)..., ik)` should denote the element of the
package `p` at the path `i1, ..., ik`. The code unwinds the reference from the
outside and collects the indices in the order it meets them, so it walks the
package by the path reversed (`exec_get_indexRef`, `exec_modify_indexRef`).

* What `modify_index_core` does to the object it walks: it replaces what stands
  at the path and nothing else (`modifyIndexCore_replaces`), or the path ends in
  a buffer field and the object stays as it is (`modifyIndexCore_cases`).
* A nested reference denotes its element exactly when its path is the same in
  both directions and, where it ends at a byte of a string, that byte is a
  character (`index_denotes_iff`).
-/

namespace Faastr.Aml

open Faastr.Lib

/-! ### Elements -/

/-- The element at a path; the last step may select a byte. -/
def element? (v : AmlValue) : List UInt64 → Option AmlValue
  | [] => some v
  | i :: rest =>
    match v with
    | .Package p => p[i.toNat]?.bind fun w => element? w rest
    | .Buffer b => if rest = [] then b[i.toNat]?.map fun x => .Integer x.toUInt64 else none
    | .String s =>
      if rest = [] then (Str.bytes s)[i.toNat]?.map fun x => .Integer x.toUInt64 else none
    | _ => none

/-- The last step of the path selects a byte. -/
def SelectsByte (v : AmlValue) (path : List UInt64) : Prop :=
  (∃ b, element? v path.dropLast = some (.Buffer b)) ∨
    ∃ s, element? v path.dropLast = some (.String s)

/-- The last step of the path selects no byte from the middle of a character. -/
def SelectsCharacter (v : AmlValue) (path : List UInt64) : Prop :=
  ∀ s x, element? v path.dropLast = some (.String s) → element? v path = some (.Integer x) →
    x < 128

/-- The path ends in a buffer field. -/
def EndsInField (v : AmlValue) : List UInt64 → Prop
  | [] => False
  | i :: rest =>
    match v with
    | .BufferField _ => rest = []
    | .Package p => ∃ w, p[i.toNat]? = some w ∧ EndsInField w rest
    | _ => False

section Elements

variable {v w : AmlValue} {p : List AmlValue} {i j : UInt64} {rest path other : List UInt64}

theorem element?_package (hw : p[i.toNat]? = some w) :
    element? (.Package p) (i :: rest) = element? w rest := by
  simp only [element?, hw, Option.bind_some]

/-- The bytes of a string or buffer are the same thing to a path. -/
def bytes? : AmlValue → Option (List UInt8)
  | .Buffer b => some b
  | .String s => some (Str.bytes s)
  | _ => none

theorem element?_bytes {b : List UInt8} (hb : bytes? v = some b) :
    element? v (i :: rest) =
      if rest = [] then b[i.toNat]?.map fun x => .Integer x.toUInt64 else none := by
  unfold bytes? at hb
  split at hb
  · cases hb
    rfl
  · cases hb
    rfl
  · cases hb

/-- A step that is valid goes into a package or selects a byte. -/
theorem element?_cons_cases (h : element? v (i :: rest) = some w) :
    (∃ p u, v = .Package p ∧ p[i.toNat]? = some u ∧ element? u rest = some w) ∨
    ∃ b x, bytes? v = some b ∧ rest = [] ∧ b[i.toNat]? = some x ∧ w = .Integer x.toUInt64 := by
  unfold element? at h
  split at h
  · next p =>
    obtain ⟨u, hu, hrest⟩ := Option.bind_eq_some_iff.mp h
    exact .inl ⟨p, u, rfl, hu, hrest⟩
  · next b =>
    split at h
    · next hnil =>
      obtain ⟨x, hx, rfl⟩ := Option.map_eq_some_iff.mp h
      exact .inr ⟨b, x, rfl, hnil, hx, rfl⟩
    · cases h
  · next s =>
    split at h
    · next hnil =>
      obtain ⟨x, hx, rfl⟩ := Option.map_eq_some_iff.mp h
      exact .inr ⟨_, x, rfl, hnil, hx, rfl⟩
    · cases h
  · cases h

/-- Replacing one element of a package leaves the paths through the others. -/
theorem element?_set_of_ne (hne : j ≠ i) (u : AmlValue) :
    element? (.Package (p.set i.toNat u)) (j :: rest) = element? (.Package p) (j :: rest) := by
  have hnat : i.toNat ≠ j.toNat := fun h => hne (UInt64.toNat_inj.mp h).symm
  simp only [element?, List.getElem?_set_ne hnat]

theorem element?_set_self (hw : p[i.toNat]? = some w) (u : AmlValue) :
    element? (.Package (p.set i.toNat u)) (i :: rest) = element? u rest :=
  element?_package (List.getElem?_set_self (List.getElem?_eq_some_iff.mp hw).1)

end Elements

/-! ### The paths that the code walks -/

/-- `Index(...Index(Index(p, i1), i2)..., ik)` of the object with a name. -/
def indexRef (name : Str) (indices : List AmlValue) : AmlValue :=
  indices.foldl (fun object index => .ObjectReference (.Index object index))
    (.ObjectReference (.Object name))

/-- The values of these indices, whatever tables are loaded. -/
def Indices (indices : List AmlValue) (path : List UInt64) : Prop :=
  List.Forall₂ (fun v i => ∀ order, v.getAsInteger order = pure i) indices path

theorem Indices.reverse {indices : List AmlValue} {path : List UInt64} (h : Indices indices path) :
    Indices indices.reverse path.reverse :=
  List.forall₂_reverse_iff.mpr h

open AmlExecutionContext

section Walk

variable {indices : List AmlValue} {path : List UInt64} {m : Machine}

/-- The reference from its outermost index on. -/
def indexedBy (name : Str) (outermost : List AmlValue) : AmlValue :=
  outermost.foldr (fun index object => .ObjectReference (.Index object index))
    (.ObjectReference (.Object name))

theorem indexRef_eq (name : Str) (indices : List AmlValue) :
    indexRef name indices = indexedBy name indices.reverse :=
  List.foldl_eq_foldr_reverse

theorem exec_getAsInteger {v : AmlValue} {i : UInt64} (h : ∀ order, v.getAsInteger order = pure i) :
    (convert fun order => v.getAsInteger order).exec m = .ok (.ok i, m) := by
  rw [Interp.exec_convert, h]
  rfl

/-- Code that unwinds a reference from its outermost index in, and then walks the object that is
left. -/
structure Unwinds {β : Type} (walk : AmlValue → List UInt64 → Interp β)
    (final : Str → List UInt64 → Interp β) : Prop where
  object : ∀ name path, walk (.ObjectReference (.Object name)) path = final name path
  index : ∀ c v path, walk (.ObjectReference (.Index c v)) path = do
    walk c (path ++ [← convert fun order => v.getAsInteger order])

variable {β : Type} {walk : AmlValue → List UInt64 → Interp β}
  {final : Str → List UInt64 → Interp β}

theorem Unwinds.exec_indexedBy (hwalk : Unwinds walk final) (h : Indices indices path) (name : Str)
    (collected : List UInt64) :
    (walk (indexedBy name indices) collected).exec m = (final name (collected ++ path)).exec m := by
  induction h generalizing collected with
  | nil =>
    rw [List.append_nil, ← hwalk.object]
    rfl
  | @cons index i indices path hindex _ ih =>
    rw [indexedBy, List.foldr_cons, hwalk.index, Interp.exec_bind_ok (exec_getAsInteger hindex),
      ← indexedBy, ih, List.append_assoc]
    rfl

/-- A nested reference has its object walked by the path reversed. -/
theorem Unwinds.exec_indexRef (hwalk : Unwinds walk final) (outer : AmlValue → Interp β)
    (houter : ∀ c v, outer (.ObjectReference (.Index c v)) = walk (.ObjectReference (.Index c v)) [])
    (h : Indices indices path) (hne : path ≠ []) (name : Str) :
    (outer (indexRef name indices)).exec m = (final name path.reverse).exec m := by
  rw [indexRef_eq, ← List.nil_append path.reverse, ← hwalk.exec_indexedBy h.reverse]
  cases hindices : indices.reverse with
  | nil =>
    rw [List.reverse_eq_nil_iff.mp hindices] at h
    cases h
    exact absurd rfl hne
  | cons index outermost => rw [indexedBy, List.foldr_cons, houter]

theorem exec_get_indexRef (h : Indices indices path) (hne : path ≠ []) (name : Str) :
    (getValue (indexRef name indices)).exec m = (getIndexFinal name path.reverse).exec m := by
  have hwalk : Unwinds getIndex getIndexFinal := ⟨fun _ _ => rfl, fun _ _ _ => rfl⟩
  exact hwalk.exec_indexRef getValue (fun _ _ => rfl) h hne name

theorem exec_modify_indexRef (redirect : AmlValue → AmlValue → Interp Unit)
    (h : Indices indices path) (hne : path ≠ []) (name : Str) (value : AmlValue) :
    (modifyWith redirect (indexRef name indices) value).exec m =
      (modifyIndexFinal redirect name value path.reverse).exec m := by
  have hwalk : Unwinds (fun ref => modifyIndex redirect ref value)
      fun name path => modifyIndexFinal redirect name value path :=
    ⟨fun _ _ => rfl, fun _ _ _ => rfl⟩
  exact hwalk.exec_indexRef (fun ref => modifyWith redirect ref value) (fun _ _ => rfl) h hne name

end Walk

/-! ### Reading -/

/-- A valid path is read. -/
theorem getIndexCore_element (order : SdtOrder) {v w : AmlValue} {path : List UInt64}
    (hne : path ≠ []) (h : element? v path = some w) : getIndexCore order v path = pure w := by
  induction path generalizing v with
  | nil => exact absurd rfl hne
  | cons i rest ih =>
    rcases element?_cons_cases h with ⟨p, u, rfl, hu, hrest⟩ | ⟨b, x, hb, rfl, hx, rfl⟩
    · have hindexed : indexed p i = pure u := by rw [indexed, hu]; rfl
      by_cases hnil : rest = []
      · subst hnil
        cases hrest
        simp only [getIndexCore, hindexed, if_pos]
      · simp only [getIndexCore, hindexed, if_neg hnil, pure_bind]
        exact ih hnil hrest
    · have hindexed : indexed b i = pure x := by rw [indexed, hx]; rfl
      unfold bytes? at hb
      split at hb
      · cases hb
        simp [getIndexCore, hindexed]
      · cases hb
        simp [getIndexCore, hindexed]
      · cases hb

theorem exec_lockedNamespace {m : Machine} (hlock : m.acpi.locked = false) :
    lockedNamespace.exec m = .ok (.ok m.acpi.objects, m) := by
  rw [lockedNamespace, Interp.exec_bind_ok Interp.exec_get, hlock]
  rfl

theorem exec_getIndexFinal {m : Machine} {objects : Namespace} {name : Str} {obj : AmlValue}
    (hlock : m.acpi.locked = false) (hobjects : m.acpi.objects = some objects)
    (hobj : objects name = some obj) (path : List UInt64) :
    (getIndexFinal name path).exec m =
      (getIndexCore m.acpi.sdtOrder obj path).run.map fun result => (result, m) := by
  rw [getIndexFinal, Interp.exec_bind_ok (exec_lockedNamespace hlock), hobjects]
  dsimp only
  rw [hobj]
  rfl

/-! ### Writing -/

theorem exec_indexed {α : Type} {l : List α} {i : UInt64} {a : α} (h : l[i.toNat]? = some a)
    (m : Machine) : (liftM (indexed l i) : Interp α).exec m = .ok (.ok a, m) := by
  rw [indexed, h]
  rfl

/-- The byte that is stored for an integer. -/
theorem exec_replaceByte {b : List UInt8} {i : UInt64} (value : UInt64) (m : Machine) :
    (replaceByte b i (.Integer value)).exec m =
      if i.toNat < b.length then .ok (.ok (b.set i.toNat value.toUInt8), m) else .error .panic := by
  have hvalue : (convert fun order => (AmlValue.Integer value).getAsInteger order).exec m =
      .ok (.ok value, m) := rfl
  rw [replaceByte, Interp.exec_bind_ok hvalue]
  split <;> rfl

theorem toUInt8_lt {x : UInt64} (h : x < 128) : x.toUInt8.toNat < 128 := by
  have hlt : x.toNat < 128 := UInt64.lt_iff_toNat_lt.mp h
  simp
  omega

theorem toUInt8_toUInt64 {x : UInt64} (h : x < 128) : x.toUInt8.toUInt64 = x := by
  apply UInt64.toNat_inj.mp
  have hlt : x.toNat < 128 := UInt64.lt_iff_toNat_lt.mp h
  simp
  omega

/-- A byte replaced is the only one that is. -/
theorem element?_of_bytes {v v' : AmlValue} {b : List UInt8} {i x : UInt64} (hb : bytes? v = some b)
    (hi : i.toNat < b.length) (hx : x < 128) (hb' : bytes? v' = some (b.set i.toNat x.toUInt8)) :
    element? v' [i] = some (.Integer x) ∧
      ∀ other, ¬ [i] <+: other → ¬ other <+: [i] → element? v' other = element? v other := by
  constructor
  · rw [element?_bytes hb', if_pos rfl, List.getElem?_set_self hi, Option.map_some,
      toUInt8_toUInt64 hx]
  · intro other hother hother'
    cases other with
    | nil => exact absurd List.nil_prefix hother'
    | cons j rest =>
      have hne : i.toNat ≠ j.toNat := by
        intro heq
        rw [UInt64.toNat_inj.mp heq] at hother
        exact hother ⟨rest, rfl⟩
      rw [element?_bytes hb', element?_bytes hb, List.getElem?_set_ne hne]

/-- **A valid path is written to, and nothing else changes.** -/
theorem modifyIndexCore_replaces {v w value : AmlValue} {path : List UInt64} (hne : path ≠ [])
    (h : element? v path = some w)
    (hvalue : SelectsByte v path → ∃ x, x < 128 ∧ value = .Integer x)
    (hchar : SelectsCharacter v path) :
    ∃ v', (∀ redirect m, (modifyIndexCore redirect v value path).exec m = .ok (.ok v', m)) ∧
      element? v' path = some value ∧
      ∀ other, ¬ path <+: other → ¬ other <+: path → element? v' other = element? v other := by
  induction path generalizing v with
  | nil => exact absurd rfl hne
  | cons i rest ih =>
    rcases element?_cons_cases h with ⟨p, u, rfl, hu, hrest⟩ | ⟨b, old, hb, rfl, hold, rfl⟩
    · by_cases hnil : rest = []
      · subst hnil
        refine ⟨.Package (p.set i.toNat value), ?_, element?_set_self hu value, ?_⟩
        · intro redirect m
          simp only [modifyIndexCore, if_pos]
          rw [Interp.exec_bind_ok (exec_indexed hu m)]
          rfl
        · intro other hother hother'
          cases other with
          | nil => exact absurd List.nil_prefix hother'
          | cons j rest =>
            refine element?_set_of_ne (fun heq => hother ?_) value
            rw [heq]
            exact ⟨rest, rfl⟩
      · -- the last step is the same one below the element
        have hlast : element? (.Package p) (i :: rest).dropLast = element? u rest.dropLast := by
          rw [List.dropLast_cons_of_ne_nil hnil, element?_package hu]
        have hvalue' : SelectsByte u rest → ∃ x, x < 128 ∧ value = .Integer x := by
          intro hbyte
          apply hvalue
          rwa [SelectsByte, hlast]
        have hchar' : SelectsCharacter u rest := by
          intro s x hs hx
          exact hchar s x (hlast.trans hs) ((element?_package hu).trans hx)
        obtain ⟨u', hrun, helement, hothers⟩ := ih hnil hrest hvalue' hchar'
        refine ⟨.Package (p.set i.toNat u'), ?_, (element?_set_self hu u').trans helement, ?_⟩
        · intro redirect m
          simp only [modifyIndexCore, if_neg hnil]
          rw [Interp.exec_bind_ok (exec_indexed hu m), Interp.exec_bind_ok (hrun redirect m)]
          rfl
        · intro other hother hother'
          cases other with
          | nil => exact absurd List.nil_prefix hother'
          | cons j rest' =>
            by_cases heq : j = i
            · subst heq
              rw [element?_set_self hu, element?_package hu]
              refine hothers rest' (fun hpre => hother ?_) (fun hpre => hother' ?_)
              · exact (List.prefix_cons_inj j).mpr hpre
              · exact (List.prefix_cons_inj j).mpr hpre
            · exact element?_set_of_ne heq u'
    · have hi : i.toNat < b.length := (List.getElem?_eq_some_iff.mp hold).1
      unfold bytes? at hb
      split at hb
      · next b' =>
        cases hb
        obtain ⟨x, hx, rfl⟩ := hvalue (.inl ⟨b, rfl⟩)
        refine ⟨.Buffer (b.set i.toNat x.toUInt8), ?_, element?_of_bytes rfl hi hx rfl⟩
        intro redirect m
        simp only [modifyIndexCore, ne_eq, not_true_eq_false, if_false]
        rw [Interp.exec_bind_ok ((exec_replaceByte x m).trans (if_pos hi))]
        rfl
      · next s =>
        cases hb
        obtain ⟨x, hx, rfl⟩ := hvalue (.inr ⟨s, rfl⟩)
        have hascii : old.toNat < 128 := by
          have hlt := hchar s old.toUInt64 rfl h
          simpa using UInt64.lt_iff_toNat_lt.mp hlt
        obtain ⟨t, ht⟩ := Utf8.set_ascii hold hascii (toUInt8_lt hx)
        have hbytes : bytes? (.String t) = some ((Str.bytes s).set i.toNat x.toUInt8) :=
          congrArg some ht.symm
        refine ⟨.String t, ?_, element?_of_bytes rfl hi hx hbytes⟩
        intro redirect m
        have hutf : Str.fromUtf8 ((Str.bytes s).set i.toNat x.toUInt8) = some t := by
          rw [Str.fromUtf8, Str.bytes, ht]
          exact Utf8.decode_encode t
        simp only [modifyIndexCore, ne_eq, not_true_eq_false, if_false]
        rw [Interp.exec_bind_ok ((exec_replaceByte x m).trans (if_pos hi)), hutf]
        rfl
      · cases hb

theorem orPanic_eq_pure {α : Type} {o : Option α} {a : α} (h : orPanic o = pure a) : o = some a := by
  cases o with
  | none => cases h
  | some b =>
    cases h
    rfl

theorem exec_indexed_eq_ok {α : Type} {l : List α} {i : UInt64} {a : α} {m m' : Machine}
    (h : (liftM (indexed l i) : Interp α).exec m = .ok (.ok a, m')) :
    l[i.toNat]? = some a ∧ m' = m := by
  obtain ⟨hindexed, hm⟩ := Interp.exec_convert_eq_ok h
  exact ⟨orPanic_eq_pure hindexed, hm⟩

theorem exec_replaceByte_eq_ok {b b' : List UInt8} {i x : UInt64} {m m' : Machine}
    (h : (replaceByte b i (.Integer x)).exec m = .ok (.ok b', m')) :
    i.toNat < b.length ∧ b' = b.set i.toNat x.toUInt8 ∧ m' = m := by
  rw [exec_replaceByte] at h
  split at h
  · next hi =>
    cases h
    exact ⟨hi, rfl, rfl⟩
  · cases h

/-- A byte that is replaced in a string is a character, if both the string and what comes of it are
text. -/
theorem selectsCharacter_of_fromUtf8 {s t : Str} {i y : UInt64} (hy : y < 128)
    (h : Str.fromUtf8 ((Str.bytes s).set i.toNat y.toUInt8) = some t) :
    SelectsCharacter (.String s) [i] := by
  intro s' x hs hx
  cases hs
  obtain ⟨old, hold, heq⟩ := Option.map_eq_some_iff.mp hx
  cases heq
  by_contra hge
  have hold' : 128 ≤ old.toNat := by
    have hle := UInt64.le_iff_toNat_le.mp (UInt64.not_lt.mp hge)
    simpa using hle
  have hnone : Str.fromUtf8 ((Str.bytes s).set i.toNat y.toUInt8) = none :=
    Utf8.decode_set_eq_none hold hold' (toUInt8_lt hy)
  cases hnone.symm.trans h

/-- An integer that was written stands at the path, or the path ends in a buffer
field and the object is as it was. A byte that was replaced in a string was a character. -/
theorem modifyIndexCore_cases {redirect : AmlValue → AmlValue → Interp Unit} {v v' : AmlValue}
    {x : UInt64} {path : List UInt64} {m m' : Machine} (hx : x < 128)
    (h : (modifyIndexCore redirect v (.Integer x) path).exec m = .ok (.ok v', m')) :
    SelectsCharacter v path ∧ ((EndsInField v path ∧ v' = v) ∨
      (¬ EndsInField v path ∧ element? v' path = some (.Integer x))) := by
  induction path generalizing v v' m with
  | nil => cases h
  | cons i rest ih =>
    unfold modifyIndexCore at h
    split at h
    · next s =>
      split at h
      · cases h
      · next hnil =>
        obtain rfl : rest = [] := not_not.mp hnil
        obtain ⟨bytes, m₁, hbytes, hrest⟩ := Interp.exec_bind_eq_ok h
        obtain ⟨t, m₂, ht, hreturn⟩ := Interp.exec_bind_eq_ok hrest
        obtain ⟨hi, rfl, -⟩ := exec_replaceByte_eq_ok hbytes
        cases hreturn
        have hutf := orPanic_eq_pure (Interp.exec_convert_eq_ok ht).1
        have hbytes' : bytes? (.String t) = some ((Str.bytes s).set i.toNat x.toUInt8) :=
          congrArg some (Utf8.encode_of_decode hutf)
        have hb : bytes? (.String s) = some (Str.bytes s) := rfl
        exact ⟨selectsCharacter_of_fromUtf8 hx hutf, .inr ⟨id, (element?_of_bytes hb hi hx hbytes').1⟩⟩
    · next b =>
      split at h
      · cases h
      · next hnil =>
        obtain rfl : rest = [] := not_not.mp hnil
        obtain ⟨bytes, m₁, hbytes, hreturn⟩ := Interp.exec_bind_eq_ok h
        obtain ⟨hi, rfl, -⟩ := exec_replaceByte_eq_ok hbytes
        cases hreturn
        have hb : bytes? (.Buffer b) = some b := rfl
        exact ⟨nofun, .inr ⟨id, (element?_of_bytes hb hi hx rfl).1⟩⟩
    · next b =>
      split at h
      · cases h
      · next hnil =>
        obtain ⟨idx, m₁, -, hrest⟩ := Interp.exec_bind_eq_ok h
        obtain ⟨_, m₂, -, hreturn⟩ := Interp.exec_bind_eq_ok hrest
        cases hreturn
        obtain rfl : rest = [] := not_not.mp hnil
        exact ⟨nofun, .inl ⟨rfl, rfl⟩⟩
    · next p =>
      split at h
      · next hnil =>
        subst hnil
        obtain ⟨u, m₁, hindexed, hreturn⟩ := Interp.exec_bind_eq_ok h
        have hu := (exec_indexed_eq_ok hindexed).1
        cases hreturn
        refine ⟨nofun, .inr ⟨?_, element?_set_self hu _⟩⟩
        rintro ⟨_, -, hfield⟩
        exact hfield
      · next hnil =>
        obtain ⟨u, m₁, hindexed, hrest⟩ := Interp.exec_bind_eq_ok h
        obtain ⟨u', m₂, hrun, hreturn⟩ := Interp.exec_bind_eq_ok hrest
        have hu := (exec_indexed_eq_ok hindexed).1
        cases hreturn
        obtain ⟨hchar, hcases⟩ := ih hrun
        refine ⟨fun s y hs hy => hchar s y ?_ ((element?_package hu).symm.trans hy), ?_⟩
        · rwa [List.dropLast_cons_of_ne_nil hnil, element?_package hu] at hs
        rcases hcases with ⟨hfield, rfl⟩ | ⟨hfield, helement⟩
        · left
          refine ⟨⟨_, hu, hfield⟩, ?_⟩
          rw [← (List.getElem?_eq_some_iff.mp hu).2, List.set_getElem_self]
        · right
          refine ⟨?_, (element?_set_self hu u').trans helement⟩
          rintro ⟨u₂, hu₂, hfield₂⟩
          rw [hu] at hu₂
          cases hu₂
          exact hfield hfield₂
    · cases h

/-! ### The namespace around a write -/

theorem exec_withLock {α : Type} {body : Interp α} {m : Machine} (hlock : m.acpi.locked = false) :
    (withLock body).exec m =
      (body.exec (m.lock true)).map fun result => (result.1, result.2.lock false) := by
  rw [withLock, Interp.exec_bind_ok (exec_lockedNamespace hlock),
    Interp.exec_bind_ok (Interp.exec_modify _), Interp.exec_bind, Interp.exec_attempt]
  cases body.exec (m.lock true) <;> rfl

/-- The object is changed under the lock and put back in its place. -/
theorem exec_modifyIndexFinal {redirect : AmlValue → AmlValue → Interp Unit} {m : Machine}
    {objects : Namespace} {name : Str} {obj : AmlValue} (hlock : m.acpi.locked = false)
    (hobjects : m.acpi.objects = some objects) (hobj : objects name = some obj) (value : AmlValue)
    (path : List UInt64) :
    (modifyIndexFinal redirect name value path).exec m =
      ((modifyIndexCore redirect obj value path >>= fun obj' =>
        modify fun m => m.insert objects name obj').exec (m.lock true)).map fun result =>
          (result.1, result.2.lock false) := by
  rw [modifyIndexFinal, exec_withLock hlock, Interp.exec_bind_ok Interp.exec_get]
  have hlocked : (m.lock true).acpi.objects = some objects := hobjects
  rw [hlocked]
  dsimp only
  rw [hobj]

/-! ### The order of the tables -/

section Order

/-- The order of the tables, which conversions depend on. -/
abbrev orderOf (m : Machine) : SdtOrder := m.acpi.sdtOrder

open Interp

variable {R : Machine → Machine → Prop} [IsPreorder Machine R]

theorem lockedNamespace_moves : Moves R lockedNamespace := by
  refine .bind .get fun m => ?_
  split
  · exact .halt _
  · exact .pure _

theorem replaceByte_moves (b : List UInt8) (i : UInt64) (value : AmlValue) :
    Moves R (replaceByte b i value) := by
  refine .bind (.of_convert _) fun x => ?_
  split
  · exact .pure _
  · exact .halt _

variable {redirect : AmlValue → AmlValue → Interp Unit}

theorem modifyIndexCore_moves (h : ∀ name value, Moves R (redirect name value))
    (obj value : AmlValue) (path : List UInt64) :
    Moves R (modifyIndexCore redirect obj value path) := by
  induction path generalizing obj with
  | nil => exact .throw _
  | cons i rest ih =>
    unfold modifyIndexCore
    split
    · split
      · exact .throw _
      · exact .bind (replaceByte_moves _ _ _) fun _ => .bind (.of_lift _) fun _ => .pure _
    · split
      · exact .throw _
      · exact .bind (replaceByte_moves _ _ _) fun _ => .pure _
    · split
      · exact .throw _
      · exact .bind (.of_convert _) fun _ => .bind (.attempt (h _ _)) fun _ => .pure _
    · split
      · exact .bind (.of_lift _) fun _ => .pure _
      · exact .bind (.of_lift _) fun _ => .bind (ih _) fun _ => .pure _
    · exact .throw _

/-- What a write comes down to keeps the relation: a local variable set, an object replaced and an
object changed behind the lock. -/
structure Writes (R : Machine → Machine → Prop) : Prop where
  ctx : ∀ m ctx, R m { m with ctx := ctx }
  object : ∀ name value, Moves R (modifyObject name value)
  final : ∀ redirect, (∀ name value, Moves R (redirect name value)) →
    ∀ name value path, Moves R (modifyIndexFinal redirect name value path)

theorem modifyIndex_moves (hR : Writes R) (h : ∀ name value, Moves R (redirect name value))
    (name value : AmlValue) (path : List UInt64) :
    Moves R (modifyIndex redirect name value path) := by
  fun_induction modifyIndex redirect name value path with
  | case1 s value path => exact hR.final _ h _ _ _
  | case2 c v value path ih => exact .bind (.of_convert _) fun _ => ih _
  | case3 => exact .throw _
  | case4 i value path =>
    exact .bind .get fun _ => .bind (.of_lift _) fun _ =>
      .bind (modifyIndexCore_moves h _ _ _) fun _ => .of_modify fun m => hR.ctx m _
  | case5 => exact .throw _

theorem modifyWith_moves (hR : Writes R) (h : ∀ name value, Moves R (redirect name value))
    (name value : AmlValue) : Moves R (modifyWith redirect name value) := by
  unfold modifyWith
  split
  · exact .throw _
  · exact .bind .get fun _ => .bind (.of_lift _) fun _ => .bind (.of_convert _) fun _ =>
      .of_modify fun m => hR.ctx m _
  · exact hR.object _ _
  · exact .bind (.of_convert _) fun _ => modifyIndex_moves hR h _ _ _
  · exact hR.object _ _
  · exact .throw _

theorem modifyValue_moves (hR : Writes R) (fuel : Nat) (name value : AmlValue) :
    Moves R (modifyValue fuel name value) := by
  induction fuel generalizing name value with
  | zero => exact modifyWith_moves hR (fun _ _ => .halt _) name value
  | succ fuel ih => exact modifyWith_moves hR ih name value

/-- Machines with the tables in one order. -/
abbrev SameOrder (m m' : Machine) : Prop := orderOf m' = orderOf m

instance : IsPreorder Machine SameOrder where
  refl _ := rfl
  trans _ _ _ h h' := h'.trans h

theorem sameOrder_writes : Writes SameOrder where
  ctx _ _ := rfl
  object name value := by
    refine .bind lockedNamespace_moves fun objects => ?_
    cases objects with
    | none => exact .throw _
    | some objects => exact .bind (.of_convert _) fun _ => .of_modify fun _ => rfl
  final redirect h name value path := by
    refine .bind lockedNamespace_moves fun _ => .bind (.of_modify fun _ => rfl) fun _ => ?_
    refine .bind (.attempt (.bind .get fun m => ?_)) fun r =>
      .bind (.of_modify fun _ => rfl) fun _ => ?_
    · cases m.acpi.objects with
      | none => exact .throw _
      | some objects =>
        dsimp only
        cases objects name with
        | none => exact .throw _
        | some obj => exact .bind (modifyIndexCore_moves h _ _ _) fun _ => .of_modify fun _ => rfl
    · cases r with
      | ok a => exact .pure a
      | error e => exact .throw e

/-- A write does not change the order of the tables. -/
theorem modifyValue_fixes (fuel : Nat) (name value : AmlValue) :
    Fixes orderOf (modifyValue fuel name value) :=
  modifyValue_moves sameOrder_writes fuel name value

end Order

/-! ### What a nested reference denotes -/

/-- The reference is the element of `p` at the path: it is read as such; and a
value written to it (an integer below 128 for a byte) is read back, with every
other element as it was. -/
def Denotes (m : Machine) (name : Str) (p ref : AmlValue) (path : List UInt64) : Prop :=
  (∃ w, element? p path = some w ∧ (getValue ref).exec m = .ok (.ok w, m)) ∧
  ∀ value, (SelectsByte p path → ∃ x, x < 128 ∧ value = .Integer x) →
    ∃ n m' objects' p', (∀ fuel ≥ n, (modifyValue fuel ref value).exec m = .ok (.ok (), m')) ∧
      m'.acpi.objects = some objects' ∧ objects' name = some p' ∧
      (getValue ref).exec m' = .ok (.ok value, m') ∧
      ∀ other, ¬ path <+: other → ¬ other <+: path → element? p' other = element? p other

section Denotes

variable {m : Machine} {objects : Namespace} {name : Str} {p : AmlValue} {indices : List AmlValue}
  {path : List UInt64}

theorem modifyValue_eq_modifyWith (fuel : Nat) :
    ∃ redirect, modifyValue fuel = modifyWith redirect := by
  cases fuel with
  | zero => exact ⟨_, rfl⟩
  | succ fuel => exact ⟨_, rfl⟩

/-- What a successful write through the reference did. -/
theorem modifyValue_indexRef (hlock : m.acpi.locked = false)
    (hobjects : m.acpi.objects = some objects) (hp : objects name = some p)
    (hindices : Indices indices path) (hne : path ≠ []) {fuel : Nat} {value : AmlValue}
    {m' : Machine} (h : (modifyValue fuel (indexRef name indices) value).exec m = .ok (.ok (), m')) :
    m'.acpi.locked = false ∧ m'.acpi.sdtOrder = m.acpi.sdtOrder ∧
      ∃ redirect m₀ m₁ p',
        (modifyIndexCore redirect p value path.reverse).exec m₀ = .ok (.ok p', m₁) ∧
        m'.acpi.objects = some (Function.update objects name (some p')) := by
  have horder := modifyValue_fixes fuel _ _ m _ m' h
  obtain ⟨redirect, hredirect⟩ := modifyValue_eq_modifyWith fuel
  rw [hredirect, exec_modify_indexRef redirect hindices hne,
    exec_modifyIndexFinal hlock hobjects hp] at h
  cases hbody : (modifyIndexCore redirect p value path.reverse >>= fun obj' =>
      modify fun m => m.insert objects name obj').exec (m.lock true) with
  | error reason =>
    rw [hbody] at h
    cases h
  | ok result =>
    obtain ⟨r, m₂⟩ := result
    rw [hbody] at h
    cases h
    obtain ⟨p', m₁, hcore, hinsert⟩ := Interp.exec_bind_eq_ok hbody
    cases hinsert
    exact ⟨rfl, horder, redirect, _, m₁, p', hcore, rfl⟩

/-- An integer below 128 may be written anywhere: what is read back tells where. -/
theorem Denotes.integer (hlock : m.acpi.locked = false)
    (hobjects : m.acpi.objects = some objects) (hp : objects name = some p)
    (hindices : Indices indices path) (hne : path ≠ [])
    (h : Denotes m name p (indexRef name indices) path) {x : UInt64} (hx : x < 128) :
    ∃ p', getIndexCore m.acpi.sdtOrder p' path.reverse = pure (.Integer x) ∧
      ((EndsInField p path.reverse ∧ p' = p) ∨
        (¬ EndsInField p path.reverse ∧ element? p' path.reverse = some (.Integer x))) ∧
      ∀ other, ¬ path <+: other → ¬ other <+: path → element? p' other = element? p other := by
  obtain ⟨n, m', objects', p', hrun, hobjects', hp', hread, hothers⟩ :=
    h.2 (.Integer x) fun _ => ⟨x, hx, rfl⟩
  obtain ⟨hlock', horder, redirect, m₀, m₁, q, hcore, hafter⟩ :=
    modifyValue_indexRef hlock hobjects hp hindices hne (hrun n (Nat.le_refl n))
  obtain rfl : q = p' := by
    rw [hafter] at hobjects'
    cases hobjects'
    rw [Function.update_self] at hp'
    exact Option.some.inj hp'
  refine ⟨q, ?_, (modifyIndexCore_cases hx hcore).2, hothers⟩
  rw [exec_get_indexRef hindices hne, exec_getIndexFinal hlock' hobjects' hp', horder] at hread
  cases hget : (getIndexCore m.acpi.sdtOrder q path.reverse).run with
  | error reason =>
    rw [hget] at hread
    cases hread
  | ok result =>
    rw [hget] at hread
    cases hread
    exact hget

/-- A path that is not the same backwards is not what the code walks. -/
theorem Denotes.reverse_eq (hlock : m.acpi.locked = false)
    (hobjects : m.acpi.objects = some objects) (hp : objects name = some p)
    (hindices : Indices indices path) (hne : path ≠ [])
    (h : Denotes m name p (indexRef name indices) path) : path.reverse = path := by
  by_contra hrev
  obtain ⟨p₀, hread₀, hwritten₀, hothers₀⟩ :=
    h.integer hlock hobjects hp hindices hne (x := 0) (by decide)
  obtain ⟨p₁, hread₁, hwritten₁, hothers₁⟩ :=
    h.integer hlock hobjects hp hindices hne (x := 1) (by decide)
  have hunrelated : ¬ path <+: path.reverse ∧ ¬ path.reverse <+: path :=
    ⟨fun hpre => hrev (hpre.eq_of_length (by simp)).symm,
      fun hpre => hrev (hpre.eq_of_length (by simp))⟩
  rcases hwritten₀ with ⟨hfield, rfl⟩ | ⟨hfield, helement₀⟩
  · rcases hwritten₁ with ⟨-, rfl⟩ | ⟨hnot, -⟩
    · rw [hread₀] at hread₁
      cases hread₁
    · exact hnot hfield
  · rcases hwritten₁ with ⟨hyes, -⟩ | ⟨-, helement₁⟩
    · exact hfield hyes
    · rw [hothers₀ _ hunrelated.1 hunrelated.2] at helement₀
      rw [hothers₁ _ hunrelated.1 hunrelated.2, helement₀] at helement₁
      cases helement₁

/-- **A nested reference denotes the element of its path exactly when the path
reads the same backwards and a byte of a string that it ends at is a
character.** -/
theorem index_denotes_iff {p : List AmlValue} {w : AmlValue} (hlock : m.acpi.locked = false)
    (hobjects : m.acpi.objects = some objects) (hp : objects name = some (.Package p))
    (hindices : Indices indices path) (hne : path ≠ [])
    (hvalid : element? (.Package p) path = some w) :
    Denotes m name (.Package p) (indexRef name indices) path ↔
      path.reverse = path ∧ SelectsCharacter (.Package p) path := by
  constructor
  · intro h
    have hrev := h.reverse_eq hlock hobjects hp hindices hne
    refine ⟨hrev, ?_⟩
    obtain ⟨n, m', _, _, hrun, -⟩ := h.2 (.Integer 0) fun _ => ⟨0, by decide, rfl⟩
    obtain ⟨-, -, redirect, m₀, m₁, p', hcore, -⟩ :=
      modifyValue_indexRef hlock hobjects hp hindices hne (hrun n (Nat.le_refl n))
    rw [hrev] at hcore
    exact (modifyIndexCore_cases (by decide) hcore).1
  · rintro ⟨hrev, hchar⟩
    constructor
    · refine ⟨w, hvalid, ?_⟩
      rw [exec_get_indexRef hindices hne, hrev, exec_getIndexFinal hlock hobjects hp,
        getIndexCore_element _ hne hvalid]
      rfl
    · intro value hvalue
      obtain ⟨p', hcore, helement, hothers⟩ := modifyIndexCore_replaces hne hvalid hvalue hchar
      have hunlock : ((m.lock true).insert objects name p').lock false = m.insert objects name p' := by
        simp only [Machine.lock, Machine.insert, ← hlock]
      refine ⟨0, m.insert objects name p', _, p', ?_, rfl, Function.update_self name _ objects, ?_,
        hothers⟩
      · intro fuel _
        obtain ⟨redirect, hredirect⟩ := modifyValue_eq_modifyWith fuel
        rw [hredirect, exec_modify_indexRef redirect hindices hne, hrev,
          exec_modifyIndexFinal hlock hobjects hp, Interp.exec_bind_ok (hcore redirect _), ← hunlock]
        rfl
      · have hlock' : (m.insert objects name p').acpi.locked = false := hlock
        have hobjects' : (m.insert objects name p').acpi.objects =
            some (Function.update objects name (some p')) := rfl
        rw [exec_get_indexRef hindices hne, hrev,
          exec_getIndexFinal hlock' hobjects' (Function.update_self name _ objects),
          getIndexCore_element _ hne helement]
        rfl

end Denotes

/-! ### A package of two packages -/

def twoByTwo : List AmlValue :=
  [.Package [.Integer 0, .Integer 1], .Package [.Integer 2, .Integer 3]]

/-- A machine whose namespace holds the package as `P`. -/
def packageMachine : Machine :=
  .new (some fun name => if name = ['P'] then some (.Package twoByTwo) else none)

/-- `Index(Index(P, 0), 1)` is read as the element at 1, 0. -/
theorem index_read_transposed :
    element? (.Package twoByTwo) [0, 1] = some (.Integer 1) ∧
    (getValue (indexRef ['P'] [.Integer 0, .Integer 1])).exec packageMachine =
      .ok (.ok (.Integer 2), packageMachine) :=
  ⟨rfl, rfl⟩

/-- `Index(Index(P, 1), 1)` is the element at 1, 1. -/
theorem index_diagonal_denotes :
    Denotes packageMachine ['P'] (.Package twoByTwo) (indexRef ['P'] [.Integer 1, .Integer 1])
      [1, 1] := by
  refine (index_denotes_iff rfl rfl rfl ?_ (by decide) rfl).mpr ⟨rfl, ?_⟩
  · exact .cons (fun _ => rfl) (.cons (fun _ => rfl) .nil)
  · intro s x hs
    cases hs

end Faastr.Aml
