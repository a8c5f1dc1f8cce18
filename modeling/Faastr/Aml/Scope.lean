import Faastr.Aml.Value

/-!
Absolute paths of the AML namespace (`get_namespace_string` of
`acpi/aml/namespace.rs`).

A scope is the root `\` and the names on the way down, with a dot between them;
a modifier climbs with carets and goes down again. The code edits the scope as a
string: it pops characters up to a dot for each caret.

* Climbing takes the last names off as long as one is left
  (`climb_carets`).
* The name below the root has no dot before it, so climbing to the root fails
  (`getNamespaceString_resolves_iff`, `climb_to_root_fails`).
-/

namespace Faastr.Aml

/-! ### The code -/

/-- The inner loop for a caret, on the characters of the scope last first: they
are popped up to a dot and with it. -/
def popSegment : Str → Option Str
  | [] => none
  | '.' :: scope => some scope
  | _ :: scope => popSegment scope

/-- The loop over the carets of a modifier, on the scope last character first. -/
def climb : Str → Str → Except AmlError (Str × Str)
  | '^' :: modifier, scope =>
    if scope.head? = some '\\' then throw .AmlValueError
    else
      match popSegment scope with
      | some scope => climb modifier scope
      | none => throw .AmlValueError
  | modifier, scope => pure (modifier, scope)

def getNamespaceString (order : SdtOrder) (current : Str) (modifierV : AmlValue) : Conv Str := do
  let modifier ← modifierV.getAsString order
  if current = [] then return modifier
  if modifier = [] then return current
  if modifier.head? = some '\\' then return modifier
  let (modifier, scope) ← ExceptT.mk (pure (climb modifier current.reverse))
  let scope := if scope.head? = some '\\' then scope else '.' :: scope
  return scope.reverse ++ modifier

/-! ### Paths -/

/-- A name in a path. -/
structure Segment where
  chars : Str
  nonempty : chars ≠ []
  plain : ∀ c ∈ chars, c ≠ '.' ∧ c ≠ '^' ∧ c ≠ '\\'

/-- Names with a dot between them. -/
def dotted : List Segment → Str
  | [] => []
  | s :: rest => s.chars ++ rest.flatMap fun t => '.' :: t.chars

/-- The absolute path through these names. -/
def path (segments : List Segment) : Str := '\\' :: dotted segments

/-- A modifier: carets and at least one name. -/
def modifier (carets : Nat) (first : Segment) (rest : List Segment) : Str :=
  List.replicate carets '^' ++ dotted (first :: rest)

theorem path_concat_cons (s : Segment) (rest : List Segment) (t : Segment) :
    path (s :: rest ++ [t]) = path (s :: rest) ++ '.' :: t.chars := by
  simp [path, dotted]

theorem path_append (s : Segment) (rest : List Segment) (first : Segment) (more : List Segment) :
    path (s :: rest ++ first :: more) = path (s :: rest) ++ '.' :: dotted (first :: more) := by
  simp [path, dotted]

/-- A path below the root ends with its last name's last character. -/
theorem head_reverse_path_concat (segments : List Segment) (t : Segment) :
    (path (segments ++ [t])).reverse.head? ≠ some '\\' := by
  have hlast : ∃ scope, path (segments ++ [t]) = scope ++ t.chars := by
    cases segments with
    | nil => exact ⟨['\\'], by simp [path, dotted]⟩
    | cons s rest => exact ⟨path (s :: rest) ++ ['.'], by rw [path_concat_cons, List.append_assoc]; rfl⟩
  obtain ⟨scope, hscope⟩ := hlast
  intro hhead
  rw [hscope, List.head?_reverse, List.getLast?_append_of_ne_nil _ t.nonempty] at hhead
  exact (t.plain _ (List.mem_of_getLast? hhead)).2.2 rfl

/-! ### Climbing -/

/-- The characters of a name are popped off up to what stands before it. -/
theorem popSegment_append (t : Segment) (scope : Str) :
    popSegment (t.chars.reverse ++ scope) = popSegment scope := by
  have hplain : ∀ c ∈ t.chars.reverse, c ≠ '.' := fun c hc =>
    (t.plain c (List.mem_reverse.mp hc)).1
  generalize t.chars.reverse = chars at hplain
  induction chars with
  | nil => rfl
  | cons c chars ih =>
    have hdot : c ≠ '.' := hplain c List.mem_cons_self
    rw [List.cons_append, popSegment.eq_3 c _ hdot]
    exact ih fun c' hc' => hplain c' (List.mem_cons_of_mem c hc')

/-- A name below another one is taken off; the one below the root takes the root with it. -/
theorem popSegment_path (segments : List Segment) (t : Segment) :
    popSegment (path (segments ++ [t])).reverse =
      if segments = [] then none else some (path segments).reverse := by
  cases segments with
  | nil =>
    have hpath : (path [t]).reverse = t.chars.reverse ++ ['\\'] := by simp [path, dotted]
    rw [List.nil_append, hpath, popSegment_append]
    rfl
  | cons s rest =>
    have hpath : (path (s :: rest ++ [t])).reverse =
        t.chars.reverse ++ '.' :: (path (s :: rest)).reverse := by
      rw [path_concat_cons, List.reverse_append, List.reverse_cons, List.append_assoc]
      rfl
    rw [hpath, popSegment_append]
    rfl

/-- **Each caret takes one name off, as long as one is left.** -/
theorem climb_carets (carets : Nat) (segments : List Segment) (rest : Str)
    (hrest : rest.head? ≠ some '^') :
    climb (List.replicate carets '^' ++ rest) (path segments).reverse =
      if carets = 0 ∨ carets < segments.length then
        .ok (rest, (path (segments.take (segments.length - carets))).reverse)
      else .error .AmlValueError := by
  induction carets generalizing segments with
  | zero =>
    have hstop : climb rest (path segments).reverse = .ok (rest, (path segments).reverse) := by
      cases rest with
      | nil => rfl
      | cons c rest => exact climb.eq_2 _ _ fun _ heq => hrest (by simp_all)
    simpa using hstop
  | succ carets ih =>
    rw [List.replicate_succ, List.cons_append, climb.eq_1]
    rcases List.eq_nil_or_concat' segments with rfl | ⟨init, t, rfl⟩
    · rfl
    · rw [if_neg (head_reverse_path_concat init t), popSegment_path]
      by_cases hinit : init = []
      · subst hinit
        simp [throw, throwThe, MonadExceptOf.throw]
      · have hpos : 0 < init.length := List.length_pos_iff.mpr hinit
        have htake : (init ++ [t]).take ((init ++ [t]).length - (carets + 1)) =
            init.take (init.length - carets) := by
          rw [List.length_append, List.length_singleton, Nat.add_sub_add_right,
            List.take_append_of_le_length (by omega)]
        simp only [if_neg hinit, ih, htake]
        congr 1
        simp only [List.length_append, List.length_singleton, eq_iff_iff]
        omega

/-! ### Resolution -/

/-- A modifier resolved as the tree has it: carets go up, names down, and there
is nothing above the root. -/
def Resolves (order : SdtOrder) (segments : List Segment) (carets : Nat) (first : Segment)
    (rest : List Segment) : Prop :=
  (carets ≤ segments.length →
    getNamespaceString order (path segments) (.String (modifier carets first rest)) =
      pure (path (segments.take (segments.length - carets) ++ first :: rest))) ∧
  (segments.length < carets →
    ∃ e, getNamespaceString order (path segments) (.String (modifier carets first rest)) = throw e)

variable (order : SdtOrder)

/-- A modifier that climbs is resolved as far as the climb succeeds. -/
theorem getNamespaceString_modifier (segments : List Segment) (carets : Nat) (first : Segment)
    (rest : List Segment) :
    getNamespaceString order (path segments) (.String (modifier carets first rest)) =
      if carets = 0 ∨ carets < segments.length then
        pure (path (segments.take (segments.length - carets) ++ first :: rest))
      else throw .AmlValueError := by
  obtain ⟨c, chars, hchars⟩ := List.exists_cons_of_ne_nil first.nonempty
  have hplain := first.plain c (by simp [hchars])
  have hnames : (dotted (first :: rest)).head? = some c := by simp [dotted, hchars]
  have hcaret : (dotted (first :: rest)).head? ≠ some '^' := by
    rw [hnames]
    simpa using hplain.2.1
  have hne : modifier carets first rest ≠ [] := by
    simp [modifier, dotted, hchars]
  have hrelative : (modifier carets first rest).head? ≠ some '\\' := by
    cases carets with
    | zero =>
      simp only [modifier, List.replicate_zero, List.nil_append, hnames]
      simpa using hplain.2.2
    | succ n => simp [modifier, List.replicate_succ]
  have hclimb := climb_carets carets segments (dotted (first :: rest)) hcaret
  have hpath : path segments ≠ [] := by simp [path]
  simp only [getNamespaceString, AmlValue.getAsString, pure_bind, hpath, hne, hrelative, if_false]
  rw [modifier, hclimb]
  split
  · next hcarets =>
    have hroot : path (segments.take (segments.length - carets) ++ first :: rest) =
        (if (path (segments.take (segments.length - carets))).reverse.head? = some '\\' then
            (path (segments.take (segments.length - carets))).reverse
          else '.' :: (path (segments.take (segments.length - carets))).reverse).reverse ++
          dotted (first :: rest) := by
      rcases List.eq_nil_or_concat' (segments.take (segments.length - carets)) with hnil |
        ⟨init, t, hconcat⟩
      · rw [hnil]
        rfl
      · rw [hconcat, if_neg (head_reverse_path_concat init t)]
        obtain ⟨s, more, hcons⟩ := List.exists_cons_of_ne_nil
          (show init ++ [t] ≠ [] by simp)
        rw [hcons, path_append, List.reverse_cons, List.reverse_reverse, List.append_assoc]
        rfl
    rw [hroot]
    rfl
  · rfl

/-- **A modifier is resolved as the tree has it exactly when it does not climb
from a scope below the root to the root itself; an absolute one is returned as
it is.** -/
theorem getNamespaceString_resolves_iff :
    (∀ segments carets first rest, Resolves order segments carets first rest ↔
      (carets = segments.length → segments = [])) ∧
    ∀ segments rest, getNamespaceString order (path segments) (.String ('\\' :: rest)) =
      pure ('\\' :: rest) := by
  constructor
  · intro segments carets first rest
    rw [Resolves, getNamespaceString_modifier]
    constructor
    · rintro ⟨hdown, -⟩ rfl
      by_contra hne
      have hpos : 0 < segments.length := List.length_pos_iff.mpr hne
      have hclimbed := hdown (Nat.le_refl _)
      rw [if_neg (by omega)] at hclimbed
      cases hclimbed
    · intro hroot
      constructor
      · intro hle
        have hcarets : carets = 0 ∨ carets < segments.length := by
          rcases Nat.lt_or_eq_of_le hle with hlt | heq
          · exact .inr hlt
          · exact .inl (by rw [heq, hroot heq]; rfl)
        rw [if_pos hcarets]
      · intro hlt
        exact ⟨.AmlValueError, if_neg (by omega)⟩
  · intro segments rest
    rfl

/-- `^FOO` from `\_SB` is an error, though `\FOO` is meant. -/
theorem climb_to_root_fails :
    getNamespaceString none "\\_SB".toList (.String "^FOO".toList) =
      throw (.AmlValueError : AmlError) ∧
    ¬ Resolves none [⟨"_SB".toList, nofun, by simp⟩] 1 ⟨"FOO".toList, nofun, by simp⟩ [] := by
  refine ⟨rfl, ?_⟩
  rintro ⟨hdown, -⟩
  cases hdown (Nat.le_refl _)

end Faastr.Aml
