import Mathlib.Data.List.Forall2

/-!
What the annotation pass of the compiler prints, as `symbind` reads it (`symbind/compiler.go`).

A line is a name, a colon, a visibility and the zero that C++ puts behind a string. The parser takes
off one byte behind the colon without a look at it: if there is none it panics, and if it is not a
zero the line is taken all the same.

* `splitOn_colon`: in how many parts a line falls.
* `parseAnnotationPass_right_iff`: the parser is right exactly if all lines are well formed or the
  line it stops at is not one with nothing behind its only colon.
-/

namespace Faastr.Symbind

/-- A string of Go. -/
abbrev Bytes := List UInt8

inductive Abi where
  | c
  | sos
deriving DecidableEq

inductive Visibility where
  | isPublic
  | isPrivate
deriving DecidableEq

structure SymbolTableEntry where
  name : Bytes
  offset : UInt64
  abi : Abi
  visibility : Visibility
deriving DecidableEq

abbrev SymbolTable := List SymbolTableEntry

/-- What comes back: a table, the table so far with an error, or nothing since the program panics. -/
inductive Outcome where
  | ok (table : SymbolTable)
  | error (table : SymbolTable) (message : String)
  | panics
deriving DecidableEq

def newline : UInt8 := 10

def colon : UInt8 := 58

/-- `"public"` and `"private"`. -/
def Visibility.text : Visibility → Bytes
  | .isPublic => [112, 117, 98, 108, 105, 99]
  | .isPrivate => [112, 114, 105, 118, 97, 116, 101]

/-- The `switch` on what is left behind the colon. -/
def visibilityOf (text : Bytes) : Option Visibility :=
  if text = Visibility.isPublic.text then some .isPublic
  else if text = Visibility.isPrivate.text then some .isPrivate
  else none

/-- The loop over the lines. -/
def parseLines (table : SymbolTable) : List Bytes → Outcome
  | [] => .ok table
  | line :: lines =>
      if line = [] then parseLines table lines
      else
        match line.splitOn colon with
        | [name, part] =>
            -- `parts[1][:len(parts[1])-1]`
            if part = [] then .panics
            else
              match visibilityOf part.dropLast with
              | some visibility => parseLines (table ++ [⟨name, 0, .sos, visibility⟩]) lines
              | none =>
                  .error table "Annotation pass returned data in invalid format - entries"
        | _ => .error table "Annotation pass returned data in invalid format - lines"

def parseAnnotationPass (data : Bytes) : Outcome := parseLines [] (data.splitOn newline)

/-! ### What is asked -/

/-- The lines that are not empty. -/
def linesOf (data : Bytes) : List Bytes := (data.splitOn newline).filter (· ≠ [])

/-- A name, a colon, a visibility and one more byte; there is no other colon. -/
def Reads (line : Bytes) (entry : SymbolTableEntry) (last : UInt8) : Prop :=
  colon ∉ entry.name ∧ last ≠ colon ∧ line = entry.name ++ colon :: (entry.visibility.text ++ [last]) ∧
    entry.offset = 0 ∧ entry.abi = .sos

def WellFormed (line : Bytes) : Prop := ∃ entry, Reads line entry 0

/-- The parser is right: it does not panic, it returns an error only if a line is not well formed,
and otherwise the entries of the lines, in their order. -/
def Right (data : Bytes) : Prop :=
  match parseAnnotationPass data with
  | .ok table => List.Forall₂ (fun line entry => Reads line entry 0) (linesOf data) table
  | .error _ _ => ∃ line ∈ linesOf data, ¬ WellFormed line
  | .panics => False

/-- The line is well formed but for its last byte. -/
def Loose (line : Bytes) : Prop := ∃ entry last, Reads line entry last

/-- There is one colon, and nothing behind it. -/
def Bare (line : Bytes) : Prop := ∃ name, colon ∉ name ∧ line = name ++ [colon]

/-! ### The parts of a line -/

section Line

variable {line name part : Bytes} {entry : SymbolTableEntry} {last : UInt8}

theorem splitOn_append (h : colon ∉ name) :
    (name ++ colon :: part).splitOn colon = name :: part.splitOn colon := by
  refine List.splitOnP_append_cons_of_forall_mem (p := (· == colon)) (fun x hx => ?_) colon
    (beq_self_eq_true colon) part
  exact beq_false_of_ne fun heq => h (heq ▸ hx)

/-- A line falls into two parts exactly at its only colon. -/
theorem splitOn_colon : line.splitOn colon = [name, part] ↔
    line = name ++ colon :: part ∧ colon ∉ name ∧ colon ∉ part := by
  constructor
  · intro h
    by_cases hcolon : colon ∈ line
    · obtain ⟨name', part', rfl, hname⟩ := List.eq_append_cons_of_mem hcolon
      rw [splitOn_append hname, List.cons.injEq] at h
      obtain ⟨rfl, h⟩ := h
      by_cases hpart : colon ∈ part'
      · obtain ⟨a, b, rfl, ha⟩ := List.eq_append_cons_of_mem hpart
        rw [splitOn_append ha, List.cons.injEq] at h
        exact absurd h.2 (List.splitOn_ne_nil colon b)
      · rw [List.splitOn_eq_singleton hpart, List.cons.injEq] at h
        exact ⟨h.1 ▸ rfl, hname, h.1 ▸ hpart⟩
    · rw [List.splitOn_eq_singleton hcolon] at h
      cases h
  · rintro ⟨rfl, hname, hpart⟩
    rw [splitOn_append hname, List.splitOn_eq_singleton hpart]

theorem visibilityOf_text (visibility : Visibility) : visibilityOf visibility.text = some visibility := by
  cases visibility <;> rfl

theorem visibilityOf_eq_some {text : Bytes} {visibility : Visibility}
    (h : visibilityOf text = some visibility) : text = visibility.text := by
  rw [visibilityOf] at h
  split at h
  · next htext =>
    cases h
    exact htext
  · split at h
    · next htext =>
      cases h
      exact htext
    · cases h

theorem colon_notMem_text (visibility : Visibility) : colon ∉ visibility.text := by
  cases visibility <;> decide

theorem Reads.splitOn (h : Reads line entry last) :
    line.splitOn colon = [entry.name, entry.visibility.text ++ [last]] := by
  obtain ⟨hname, hlast, hline, -, -⟩ := h
  refine splitOn_colon.mpr ⟨hline, hname, fun hmem => ?_⟩
  rcases List.mem_append.mp hmem with hmem | hmem
  · exact colon_notMem_text _ hmem
  · exact hlast (List.mem_singleton.mp hmem).symm

theorem Reads.ne_nil (h : Reads line entry last) : line ≠ [] := by
  rw [h.2.2.1]
  simp

/-- A line is read in one way. -/
theorem Reads.last_eq {entry' : SymbolTableEntry} {last' : UInt8} (h : Reads line entry last)
    (h' : Reads line entry' last') : last = last' := by
  have hend : ∀ {e : SymbolTableEntry} {b : UInt8}, Reads line e b → line.getLast? = some b := by
    intro e b hreads
    rw [hreads.2.2.1, ← List.cons_append, ← List.append_assoc, List.getLast?_concat]
  exact Option.some.inj ((hend h).symm.trans (hend h'))

end Line

/-! ### The loop -/

section Loop

variable {line : Bytes} {lines : List Bytes} {table : SymbolTable}

/-- Empty lines are passed over. -/
theorem parseLines_filter : parseLines table lines = parseLines table (lines.filter (· ≠ [])) := by
  induction lines generalizing table with
  | nil => rfl
  | cons line lines ih =>
    by_cases hline : line = []
    · rw [List.filter_cons_of_neg (by simpa using hline), parseLines, if_pos hline, ih]
    · rw [List.filter_cons_of_pos (by simpa using hline), parseLines, parseLines, if_neg hline,
        if_neg hline]
      split
      · split
        · rfl
        · split
          · exact ih
          · rfl
      · rfl

theorem parseLines_reads {entry : SymbolTableEntry} {last : UInt8} (h : Reads line entry last) :
    parseLines table (line :: lines) = parseLines (table ++ [entry]) lines := by
  have hentry : entry = ⟨entry.name, 0, .sos, entry.visibility⟩ := by
    obtain ⟨-, -, -, hoffset, habi⟩ := h
    rw [← hoffset, ← habi]
  rw [parseLines, if_neg h.ne_nil, h.splitOn]
  simp only [List.dropLast_concat, visibilityOf_text, List.append_eq_nil_iff, List.cons_ne_nil, and_false,
    if_false]
  rw [← hentry]

theorem parseLines_bare (h : Bare line) : parseLines table (line :: lines) = .panics := by
  obtain ⟨name, hname, rfl⟩ := h
  have hsplit : (name ++ [colon]).splitOn colon = [name, []] :=
    splitOn_colon.mpr ⟨rfl, hname, List.not_mem_nil⟩
  rw [parseLines, if_neg (by simp), hsplit]
  rfl

theorem parseLines_error (table : SymbolTable) (lines : List Bytes) (hline : line ≠ [])
    (hloose : ¬ Loose line) (hbare : ¬ Bare line) :
    ∃ message, parseLines table (line :: lines) = .error table message := by
  rw [parseLines, if_neg hline]
  split
  · next name part hsplit =>
    obtain ⟨hparts, hname, hpart⟩ := splitOn_colon.mp hsplit
    rcases List.eq_nil_or_concat' part with rfl | ⟨text, last, rfl⟩
    · exact absurd ⟨name, hname, hparts⟩ hbare
    · rw [if_neg (by simp), List.dropLast_concat]
      split
      · next visibility hvisibility =>
        cases visibilityOf_eq_some hvisibility
        have hlast : last ≠ colon := fun heq => hpart (heq ▸ List.mem_append_right _ List.mem_cons_self)
        exact absurd ⟨⟨name, 0, .sos, visibility⟩, last, hname, hlast, hparts, rfl, rfl⟩ hloose
      · exact ⟨_, rfl⟩
  · exact ⟨_, rfl⟩

/-- Lines that are all read give their entries. -/
theorem parseLines_loose (table : SymbolTable) (h : ∀ line ∈ lines, Loose line) (rest : List Bytes) :
    ∃ entries,
    parseLines table (lines ++ rest) = parseLines (table ++ entries) rest ∧
      List.Forall₂ (fun line entry => ∃ last, Reads line entry last) lines entries := by
  induction lines generalizing table with
  | nil => exact ⟨[], by rw [List.append_nil]; rfl, .nil⟩
  | cons line lines ih =>
    obtain ⟨⟨entry, last, hreads⟩, hlines⟩ := List.forall_mem_cons.mp h
    obtain ⟨entries, hrun, hentries⟩ := ih (table ++ [entry]) hlines
    refine ⟨entry :: entries, ?_, .cons ⟨last, hreads⟩ hentries⟩
    rw [List.cons_append, parseLines_reads hreads, hrun, List.append_assoc, List.singleton_append]

/-- The entries are those of well formed lines exactly if the bytes left out are zeros. -/
theorem forall₂_reads_iff {entries : SymbolTable}
    (h : List.Forall₂ (fun line entry => ∃ last, Reads line entry last) lines entries) :
    List.Forall₂ (fun line entry => Reads line entry 0) lines entries ↔ ∀ line ∈ lines, WellFormed line := by
  induction h with
  | nil => exact iff_of_true .nil nofun
  | @cons line entry lines entries hline _ ih =>
    obtain ⟨last, hlast⟩ := hline
    rw [List.forall₂_cons, ih, List.forall_mem_cons]
    refine and_congr_left fun _ => ⟨fun hreads => ⟨entry, hreads⟩, ?_⟩
    rintro ⟨entry', hreads⟩
    rwa [hlast.last_eq hreads] at hlast

/-- The first line that the loop cannot take. -/
noncomputable def firstNotLoose (lines : List Bytes) : Option Bytes :=
  open Classical in lines.find? fun line => ¬ Loose line

theorem firstNotLoose_eq_some {lines : List Bytes} : firstNotLoose lines = some line ↔
    ∃ before after, lines = before ++ line :: after ∧ (∀ l ∈ before, Loose l) ∧ ¬ Loose line := by
  simp only [firstNotLoose, List.find?_eq_some_iff_append, decide_eq_true_eq, Bool.not_eq_true',
    decide_eq_false_iff_not, not_not]
  constructor
  · rintro ⟨hline, before, after, hlines, hbefore⟩
    exact ⟨before, after, hlines, hbefore, hline⟩
  · rintro ⟨before, after, hlines, hbefore, hline⟩
    exact ⟨hline, before, after, hlines, hbefore⟩

theorem firstNotLoose_eq_none {lines : List Bytes} :
    firstNotLoose lines = none ↔ ∀ line ∈ lines, Loose line := by
  simp [firstNotLoose, List.find?_eq_none]

end Loop

/-- **When `symbind` reads the annotations right**: all lines are well formed, or the first line that
is not, even if its last byte is left out of account, is not a name and a colon only. -/
theorem parseAnnotationPass_right_iff (data : Bytes) : Right data ↔
    (∀ line ∈ linesOf data, WellFormed line) ∨ ∃ before line after,
      linesOf data = before ++ line :: after ∧ (∀ l ∈ before, Loose l) ∧ ¬ Loose line ∧ ¬ Bare line := by
  have hrun : parseAnnotationPass data = parseLines [] (linesOf data) := parseLines_filter
  have hne : ∀ line ∈ linesOf data, line ≠ [] := fun line hline => by
    simpa using (List.mem_filter.mp hline).2
  have hloose : ∀ line, WellFormed line → Loose line := fun line ⟨entry, h⟩ => ⟨entry, 0, h⟩
  rw [Right, hrun]
  cases hfirst : firstNotLoose (linesOf data) with
  | none =>
    have hall := firstNotLoose_eq_none.mp hfirst
    obtain ⟨entries, hparse, hentries⟩ := parseLines_loose [] hall []
    rw [List.append_nil, List.nil_append] at hparse
    rw [hparse]
    refine (forall₂_reads_iff hentries).trans ⟨.inl, ?_⟩
    rintro (hwell | ⟨before, line, after, hlines, hbefore, hline, -⟩)
    · exact hwell
    · cases hfirst.symm.trans (firstNotLoose_eq_some.mpr ⟨before, after, hlines, hbefore, hline⟩)
  | some line =>
    obtain ⟨before, after, hlines, hbefore, hline⟩ := firstNotLoose_eq_some.mp hfirst
    have hmem : line ∈ linesOf data := by
      rw [hlines]
      exact List.mem_append_right _ List.mem_cons_self
    obtain ⟨entries, hparse, -⟩ := parseLines_loose [] hbefore (line :: after)
    have hill : ¬ WellFormed line := fun hwell => hline (hloose line hwell)
    rw [hlines, hparse]
    by_cases hbare : Bare line
    · rw [parseLines_bare hbare, ← hlines]
      refine iff_of_false id ?_
      rintro (hwell | ⟨before', line', after', hlines', hbefore', hline', hbare'⟩)
      · exact hill (hwell line hmem)
      · cases hfirst.symm.trans (firstNotLoose_eq_some.mpr ⟨before', after', hlines', hbefore', hline'⟩)
        exact hbare' hbare
    · obtain ⟨message, herror⟩ := parseLines_error ([] ++ entries) after (hne line hmem) hline
        hbare
      rw [herror, ← hlines]
      exact iff_of_true ⟨line, hmem, hill⟩ (.inr ⟨before, line, after, hlines, hbefore, hline, hbare⟩)

/-- `f:public` and `g:private`, with their zeros. -/
theorem annotations_read : Right
    ([102, 58, 112, 117, 98, 108, 105, 99, 0, 10, 103, 58, 112, 114, 105, 118, 97, 116, 101, 0, 10]) := by
  refine (parseAnnotationPass_right_iff _).mpr (.inl ?_)
  have hlines : linesOf
      [102, 58, 112, 117, 98, 108, 105, 99, 0, 10, 103, 58, 112, 114, 105, 118, 97, 116, 101, 0, 10] =
      [[102, 58, 112, 117, 98, 108, 105, 99, 0], [103, 58, 112, 114, 105, 118, 97, 116, 101, 0]] := by
    decide
  rw [hlines]
  refine List.forall_mem_cons.mpr ⟨⟨⟨[102], 0, .sos, .isPublic⟩, ?_⟩, List.forall_mem_cons.mpr
    ⟨⟨⟨[103], 0, .sos, .isPrivate⟩, ?_⟩, nofun⟩⟩
  · exact ⟨by decide, by decide, rfl, rfl, rfl⟩
  · exact ⟨by decide, by decide, rfl, rfl, rfl⟩

/-- `f:`, with nothing behind the colon. -/
theorem bare_line_panics : ¬ Right [102, 58] := by
  have hpanics : parseAnnotationPass [102, 58] = .panics := by decide
  rw [Right, hpanics]
  exact id

end Faastr.Symbind
