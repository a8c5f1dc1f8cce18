import Faastr.Loader.Load

/-!
The image of a well-formed file.

`WellFormed` says what a file must be for its image to make sense, in terms of the format and not
of the code: where the names of the sections are, which section is the manifest, and what is asked
of a loadable segment. The code loads no segment with more memory than bytes, and finds no manifest
behind a section whose name is not UTF-8.

* `sectionName_eq`: the name that the code gives to a section.
* `checked_eq`: what the checks make of a well-formed file.
* `loadsImage_iff`: the well-formed files whose image is loaded.
* `load_refines`: the loader on bytes refines the one of `Faastr.Spaces.Load`.
-/

namespace Faastr.Loader

open Faastr.Lib Faastr.Memory Faastr.Spaces

/-! ### Well-formed files -/

/-- The string at an offset of a table of strings. -/
def stringAt (table : List UInt8) (offset : Nat) : List UInt8 :=
  (table.drop offset).takeWhile (· ≠ 0)

section Format

variable (data : List UInt8)

/-- The table of the names of the sections. -/
def nameTable : List UInt8 :=
  (sectionHeader data (fileHeader data) (fileHeader data).eShstrndx).bytes data

/-- The name of section `i`. -/
def sectionString (i : Nat) : List UInt8 :=
  stringAt (nameTable data) (sectionHeader data (fileHeader data) i).shName

/-- A loadable segment has some memory, not more bytes than memory, its bytes in the file and its
memory in the space for images. -/
@[mk_iff]
structure WellFormedSegment (segment : ProgramHeader) : Prop where
  some : 0 < segment.pMemsz.toNat
  fits : segment.pFilesz.toNat ≤ segment.pMemsz.toNat
  inFile : segment.pOffset.toNat + segment.pFilesz.toNat ≤ data.length
  below : segment.pVaddr.toNat + segment.pMemsz.toNat ≤ userArgOffset

instance (segment : ProgramHeader) : Decidable (WellFormedSegment data segment) :=
  decidable_of_iff' _ (wellFormedSegment_iff data segment)

/-- Section `i` is the first one that is called `.manifest`, it is in the file and it is a
manifest. -/
structure IsManifest (decode : List UInt8 → Option Manifest) (i : Nat) : Prop where
  inTable : i < (fileHeader data).eShnum
  name : sectionString data i = ElfFile.manifestName
  first : ∀ j < i, sectionString data j ≠ ElfFile.manifestName
  inFile : (sectionHeader data (fileHeader data) i).InFile data
  decodes : (decode ((sectionHeader data (fileHeader data) i).bytes data)).isSome

/-- The headers and the tables of strings are in the file, every section has a name, one of them is
the manifest, and the loadable segments are well-formed. -/
structure WellFormed (decode : List UInt8 → Option Manifest) : Prop where
  elf : IsElf data
  sections : ∀ i < (fileHeader data).eShnum, SectionIn data (fileHeader data) i
  segments : ∀ i < (fileHeader data).ePhnum, SegmentIn data (fileHeader data) i
  tables : ∀ i < (fileHeader data).eShnum, isStrtab data i →
    (sectionHeader data (fileHeader data) i).InFile data
  nameTable : (fileHeader data).eShstrndx < (fileHeader data).eShnum ∧
    (sectionHeader data (fileHeader data) (fileHeader data).eShstrndx).InFile data
  names : ∀ i < (fileHeader data).eShnum,
    0 ∈ (Loader.nameTable data).drop (sectionHeader data (fileHeader data) i).shName
  manifest : ∃ i, IsManifest data decode i
  loads : ∀ segment ∈ (elfFile data).loadable, WellFormedSegment data segment

/-- The call returns a module that has, for each loadable segment, a memory that holds it. -/
def LoadsImage (decode : List UInt8 → Option Manifest) (s : System) : Prop :=
  ∃ module r, (load decode data).run ⟨s, []⟩ = .ok (.ok module, r) ∧
    List.Forall₂ (HoldsSegment data r.system) (elfFile data).loadable module.image

/-- The sections before the manifest have names in UTF-8. -/
def NamesUtf8 : Prop :=
  ∀ i < (fileHeader data).eShnum, (∀ j ≤ i, sectionString data j ≠ ElfFile.manifestName) →
    isUtf8 (sectionString data i) = true

instance : Decidable (NamesUtf8 data) :=
  inferInstanceAs (Decidable (∀ i < _, (∀ j ≤ i, _ ≠ _) → _ = true))

end Format

/-! ### Names -/

section Names

variable {data : List UInt8} {decode : List UInt8 → Option Manifest}

theorem scanned_eq {bytes : List UInt8} (h : 0 ∈ bytes) :
    scanned bytes = (bytes.takeWhile (· ≠ 0)).length + 1 := by
  induction bytes with
  | nil => cases h
  | cons b bytes ih =>
    rw [scanned]
    by_cases hb : b = 0
    · simp [hb]
    · have hmem : 0 ∈ bytes := (List.mem_cons.mp h).resolve_left (Ne.symm hb)
      rw [if_neg hb, ih hmem, List.takeWhile_cons_of_pos (by simpa using hb), List.length_cons]

/-- A string that ends in the table is found. -/
theorem nameAt_eq {elf : ElfFile} {table : List UInt8} {index : Nat} (htable : elf.shstrtab = some table)
    (h : 0 ∈ table.drop index) : elf.nameAt index =
      if isUtf8 (stringAt table index) then some (stringAt table index) else none := by
  have hname : cut table index (index + scanned (table.drop index) - 1) = stringAt table index := by
    have htake : stringAt table index = (table.drop index).take (stringAt table index).length :=
      List.prefix_iff_eq_take.mp (List.takeWhile_prefix _)
    rw [cut, scanned_eq h]
    refine Eq.trans (congrArg (List.take · _) ?_) htake.symm
    rw [stringAt]
    omega
  have hpos : index < index + scanned (table.drop index) := by
    rw [scanned_eq h]
    omega
  rw [ElfFile.nameAt, htable, Option.bind_some]
  simp only [hname, hpos, true_and]

theorem shstrtab_eq (h : WellFormed data decode) : (elfFile data).shstrtab = some (nameTable data) := by
  have hget : (fileHeader data).sections[(fileHeader data).eShstrndx]? =
      some (fileHeader data).eShstrndx := List.getElem?_range h.nameTable.1
  show (shstrtabSection data).map _ = _
  rw [shstrtabSection, hget]
  rfl

/-- The code gives a section its name, if that is in UTF-8. -/
theorem sectionName_eq (h : WellFormed data decode) {i : Nat} (hi : i < (fileHeader data).eShnum) :
    (elfFile data).sectionName i =
      if isUtf8 (sectionString data i) then some (sectionString data i) else none :=
  nameAt_eq (shstrtab_eq h) (h.names i hi)

theorem isUtf8_manifestName : isUtf8 ElfFile.manifestName = true := by decide +kernel

/-- The search stops at a name that is not in UTF-8, and at the manifest. -/
theorem searchEnds_iff (h : WellFormed data decode) {i : Nat} (hi : i < (fileHeader data).eShnum) :
    (elfFile data).searchEnds i = true ↔
      isUtf8 (sectionString data i) = false ∨ sectionString data i = ElfFile.manifestName := by
  rw [ElfFile.searchEnds, decide_eq_true_iff, sectionName_eq h hi]
  by_cases hutf : isUtf8 (sectionString data i) = true
  · simp [hutf]
  · have hname : sectionString data i ≠ ElfFile.manifestName :=
      fun heq => hutf (heq ▸ isUtf8_manifestName)
    simp [hutf, hname]

theorem manifestSection_found (h : WellFormed data decode) (hnames : NamesUtf8 data) {i : Nat}
    (hi : IsManifest data decode i) : (elfFile data).manifestSection (fileHeader data).sections =
      some (sectionHeader data (fileHeader data) i) := by
  have hfind : (fileHeader data).sections.find? (elfFile data).searchEnds = some i := by
    refine List.find?_range_eq_some.mpr ⟨(searchEnds_iff h hi.inTable).mpr (.inr hi.name),
      List.mem_range.mpr hi.inTable, fun j hj => ?_⟩
    have hbefore : ∀ k ≤ j, sectionString data k ≠ ElfFile.manifestName :=
      fun k hk => hi.first k (Nat.lt_of_le_of_lt hk hj)
    have hj' := Nat.lt_trans hj hi.inTable
    rw [Bool.not_eq_true', ← Bool.not_eq_true, searchEnds_iff h hj']
    rintro (hutf | hname)
    · exact absurd (hnames j hj' hbefore) (by simp [hutf])
    · exact hbefore j (Nat.le_refl j) hname
  rw [ElfFile.manifestSection, hfind, Option.bind_some, sectionName_eq h hi.inTable, hi.name,
    isUtf8_manifestName]
  rfl

theorem manifestSection_lost (h : WellFormed data decode) (hnames : ¬ NamesUtf8 data) :
    (elfFile data).manifestSection (fileHeader data).sections = none := by
  simp only [NamesUtf8, not_forall] at hnames
  obtain ⟨j, hj, hbefore, hutf⟩ := hnames
  have hends := (searchEnds_iff h hj).mpr (.inl (Bool.not_eq_true _ ▸ hutf))
  cases hfind : (fileHeader data).sections.find? (elfFile data).searchEnds with
  | none => exact absurd hends (List.find?_eq_none.mp hfind j (List.mem_range.mpr hj))
  | some i =>
    -- The search stopped at the latest at `j`, so not at the manifest.
    obtain ⟨-, hi, hfirst⟩ := List.find?_range_eq_some.mp hfind
    have hle : i ≤ j := by
      by_contra hlt
      simpa [hends] using hfirst j (Nat.lt_of_not_le hlt)
    have hname : (elfFile data).sectionName i ≠ some ElfFile.manifestName := by
      rw [sectionName_eq h (List.mem_range.mp hi)]
      split
      · exact fun heq => hbefore i hle (Option.some.inj heq)
      · simp
    rw [ElfFile.manifestSection, hfind, Option.bind_some, if_neg hname]

end Names

/-! ### The checks -/

section Checks

variable {data : List UInt8} {decode : List UInt8 → Option Manifest}

theorem any_isAbove (h : WellFormed data decode) :
    (fileHeader data).segments.any (elfFile data).isAbove = false := by
  rw [List.any_eq_false]
  intro i hi habove
  obtain ⟨hload, hle⟩ := of_decide_eq_true habove
  have hle : userArgOffset ≤ (programHeader data (fileHeader data) i).vaddr.toNat := hle
  have hmem : programHeader data (fileHeader data) i ∈ (elfFile data).loadable :=
    List.mem_filter.mpr ⟨List.mem_map_of_mem hi, decide_eq_true hload⟩
  have hsegment := h.loads _ hmem
  have hsome := hsegment.some
  have hbelow := hsegment.below
  rw [ProgramHeader.vaddr_aligned] at hle
  have hpage := Nat.div_mul_le_self (programHeader data (fileHeader data) i).pVaddr.toNat pageSize
  omega

/-- The checks find the manifest unless a name before it is not in UTF-8. -/
theorem checked_eq (h : WellFormed data decode) {i : Nat} (hi : IsManifest data decode i) :
    (∃ manifest, (elfFile data).checked decode = .ok manifest) ↔ NamesUtf8 data := by
  have habove : (elfFile data).header.segments.any (elfFile data).isAbove = false := any_isAbove h
  have hchecked : (elfFile data).checked decode = (elfFile data).manifestOf decode :=
    if_neg (by simp [habove])
  rw [hchecked, ElfFile.manifestOf]
  by_cases hnames : NamesUtf8 data
  · have hfound : (elfFile data).manifestSection (elfFile data).header.sections = _ :=
      manifestSection_found h hnames hi
    obtain ⟨manifest, hmanifest⟩ := Option.isSome_iff_exists.mp hi.decodes
    have hmanifest' : decode ((sectionHeader data (fileHeader data) i).bytes (elfFile data).data) =
      some manifest := hmanifest
    rw [hfound]
    simp only [hmanifest', iff_true_intro hnames, iff_true]
    exact ⟨manifest, rfl⟩
  · have hlost : (elfFile data).manifestSection (elfFile data).header.sections = none :=
      manifestSection_lost h hnames
    rw [hlost]
    simp [hnames]

theorem tablesIn (h : WellFormed data decode) : TablesIn data where
  strtabHeaders i hi := h.sections i (List.mem_range.mp (mem_of_mem_upTo hi))
  strtab header hheader := by
    obtain ⟨i, hi, rfl⟩ := Option.map_eq_some_iff.mp hheader
    exact h.tables i (List.mem_range.mp (List.mem_of_find?_eq_some hi)) (List.find?_some hi)
  shstrtabHeaders i hi := h.sections i (List.mem_range.mp (List.mem_of_mem_take hi))
  shstrtab header hheader := by
    obtain ⟨i, hi, rfl⟩ := Option.map_eq_some_iff.mp hheader
    have heq : (fileHeader data).eShstrndx = i :=
      Option.some.inj ((List.getElem?_range h.nameTable.1).symm.trans hi)
    exact heq ▸ h.nameTable.2

theorem manifestIn (h : WellFormed data decode) {i : Nat} (hi : IsManifest data decode i) :
    (elfFile data).ManifestIn where
  headers j hj := h.sections j (List.mem_range.mp (mem_of_mem_upTo hj))
  bytes header hheader := by
    by_cases hnames : NamesUtf8 data
    · cases (manifestSection_found h hnames hi).symm.trans hheader
      exact hi.inFile
    · cases (manifestSection_lost h hnames).symm.trans hheader

end Checks

/-! ### No sum wraps -/

section Sums

variable {data : List UInt8} {decode : List UInt8 → Option Manifest} {s : System}

theorem WellFormedSegment.sums {segment : ProgramHeader} (h : WellFormedSegment data segment)
    (hlen : data.length < 2 ^ 63) : SumsFit segment := by
  have hbelow := h.below
  have hfile := h.inFile
  have hvoff := voff_eq segment
  have hmod := Nat.mod_le segment.pVaddr.toNat pageSize
  have hsize := size_eq segment
  unfold SumsFit
  simp only [userArgOffset, pageSize] at *
  omega

theorem readable (h : WellFormed data decode) : Readable data := by
  obtain ⟨i, hi⟩ := h.manifest
  refine ⟨tablesIn h, fun i hi => ?_, fun _ => manifestIn h hi⟩
  exact h.segments i (List.mem_range.mp (mem_of_mem_upTo hi))

theorem load_fit (hlen : data.length < 2 ^ 63) (h : WellFormed data decode) :
    Ensures (load decode data) ⟨s, []⟩ fun _ r => r.Fit :=
  (load_acts (by omega)).fit fun _ => ⟨readable h, fun _ _ segment hmem => (h.loads segment hmem).sums hlen⟩

end Sums

/-! ### The image -/

section Image

variable {data : List UInt8} {decode : List UInt8 → Option Manifest} {s : System}

theorem outcome_image_iff {result : Except String LoadedModule} {elf : ElfFile}
    (h : elf.Outcome decode result s) :
    (∃ module, result = .ok module ∧ List.Forall₂ (HoldsSegment elf.data s) elf.loadable module.image) ↔
      ∃ manifest, elf.checked decode = .ok manifest := by
  rw [ElfFile.Outcome] at h
  cases hchecked : elf.checked decode with
  | error e =>
    rw [hchecked] at h
    simp [h]
  | ok manifest =>
    rw [hchecked] at h
    obtain ⟨image, rfl, himage⟩ := h
    exact iff_of_true ⟨_, rfl, himage⟩ ⟨manifest, rfl⟩

/-- **The well-formed files whose image is loaded**: no segment has more memory than bytes, the
names before the manifest are in UTF-8, and there is memory for the image. -/
theorem loadsImage_iff (data : List UInt8) (decode : List UInt8 → Option Manifest) (s : System)
    (hlen : data.length < 2 ^ 63) (hvacant : Vacant s) (h : WellFormed data decode) :
    LoadsImage data decode s ↔
      (∀ segment ∈ (elfFile data).loadable, segment.pFilesz = segment.pMemsz) ∧
        NamesUtf8 data ∧ AffordsSegments s (elfFile data).loadable := by
  obtain ⟨i, hi⟩ := h.manifest
  have hreturns : LoadsImage data decode s ↔ ∃ result r, (load decode data).run ⟨s, []⟩ = .ok (result, r) ∧
      r.Fit ∧ ∃ module, result = .ok module ∧
        List.Forall₂ (HoldsSegment data r.system) (elfFile data).loadable module.image := by
    constructor
    · rintro ⟨module, r, hrun, himage⟩
      exact ⟨.ok module, r, hrun, load_fit hlen h _ _ hrun, module, rfl, himage⟩
    · rintro ⟨_, r, hrun, -, module, rfl, himage⟩
      exact ⟨module, r, hrun, himage⟩
  refine (hreturns.trans ((load_decided hlen hvacant h.elf).exists_iff
    fun _ _ _ h => outcome_image_iff h)).trans ?_
  rw [checked_eq h hi]
  constructor
  · rintro ⟨⟨-, hload⟩, hnames⟩
    obtain ⟨manifest, hmanifest⟩ := (checked_eq h hi).mpr hnames
    obtain ⟨hfills, hafford⟩ := hload manifest hmanifest
    exact ⟨fun segment hmem => (hfills segment hmem).whole, hnames, hafford⟩
  · rintro ⟨hwhole, hnames, hafford⟩
    refine ⟨⟨readable h, fun _ _ => ⟨fun segment hmem => ?_, hafford⟩⟩, hnames⟩
    have hsegment := h.loads segment hmem
    exact ⟨Nat.add_pos_right _ hsegment.some, hwhole segment hmem, hsegment.inFile⟩

theorem smallFile_wellFormed {memsz : Nat} (h : memsz ∈ [10, 20]) :
    WellFormed (smallFile 120 4096 memsz) contentDecode := by
  simp only [List.mem_cons, List.not_mem_nil, or_false] at h
  rcases h with rfl | rfl
  all_goals
    refine ⟨⟨?_, ?_, ?_⟩, ?_, ?_, ?_, ?_, ?_, ⟨0, ?_, ?_, ?_, ?_, ?_⟩, ?_⟩
    all_goals decide +kernel

theorem loads_small_image : LoadsImage (smallFile 120 4096 10) contentDecode arenaSystem := by
  have hlength : (smallFile 120 4096 10).length < 2 ^ 63 := by decide +kernel
  have hone : (elfFile (smallFile 120 4096 10)).loadable.map pagesOver = [1] := by decide +kernel
  refine (loadsImage_iff _ contentDecode arenaSystem hlength arenaSystem_vacant
    (smallFile_wellFormed (by simp))).mpr ⟨by decide +kernel, by decide +kernel, ?_⟩
  rw [AffordsSegments, hone]
  exact arenaSystem_affords

theorem bss_not_loaded : WellFormed (smallFile 120 4096 20) contentDecode ∧
    ¬ LoadsImage (smallFile 120 4096 20) contentDecode arenaSystem := by
  refine ⟨smallFile_wellFormed (by simp), ?_⟩
  rintro ⟨module, r, hrun, -⟩
  have hfails : ((load contentDecode (smallFile 120 4096 20)).run ⟨arenaSystem, []⟩).toBool = false := by
    decide +kernel
  rw [hrun] at hfails
  cases hfails

end Image

/-! ### The loader on what the file says -/

section Refinement

variable {data : List UInt8} {decode : List UInt8 → Option Manifest} {s : System}

/-- **The loader on bytes does what the one on segments does**, on what the file says. -/
theorem load_refines {result : Except String LoadedModule} {r : Run} (hlen : data.length < 2 ^ 63)
    (hrun : (load decode data).run ⟨s, []⟩ = .ok (result, r)) (hfit : r.Fit) :
    (Spaces.load (parse decode data)).run s = .ok (result, r.system) :=
  (load_acts (by omega)).refines hrun hfit

theorem small_file_refined : ∃ result s',
    (Spaces.load (parse contentDecode (smallFile 120 4096 10))).run arenaSystem = .ok (result, s') := by
  have hlength : (smallFile 120 4096 10).length < 2 ^ 63 := by decide +kernel
  have hreturns : ((load contentDecode (smallFile 120 4096 10)).run ⟨arenaSystem, []⟩).toBool = true := by
    decide +kernel
  cases hrun : (load contentDecode (smallFile 120 4096 10)).run ⟨arenaSystem, []⟩ with
  | error e =>
    rw [hrun] at hreturns
    cases hreturns
  | ok out =>
    exact ⟨_, _, load_refines hlength hrun
      (load_fit hlength (smallFile_wellFormed (by simp)) _ _ hrun)⟩

end Refinement

end Faastr.Loader
