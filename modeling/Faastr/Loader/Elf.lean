import Faastr.Lib.Decided
import Faastr.Lib.LittleEndian
import Faastr.Spaces.Load

/-!
Reading an ELF file (`kernel/src/elf.rs`).

The headers are read where the file says they are, through pointers that nothing checks; the
bytes of a section are a slice, which is checked. Sums wrap as words do. They are also kept as
numbers (`Run.sums`), and so it can be said of a run that none of them wrapped.

* `ElfFile.ofBytes`: `Elf::from`.
* `sectionAt_decided`, `sliceOf_decided`, `findSection_decided`, …: each step returns when the
  headers that it reads and the bytes that it takes are in the file, and only then.
* `ofBytes_decided`: when `Elf::from` returns.
-/

namespace Faastr.Loader

open Faastr.Lib Faastr.Spaces

/-! ### Code that reads a file -/

/-- The state of the kernel, and the sizes and offsets computed so far. -/
structure Run where
  system : System
  sums : List Nat

/-- Why the code stops: it reads behind the file, or panics. -/
inductive Stop where
  | outside
  | panic (panic : Panic)
deriving DecidableEq

abbrev Code := StateT Run (Except Stop)

/-- No sum has wrapped. -/
def Run.Fit (r : Run) : Prop := ∀ n ∈ r.sums, n < 2 ^ 64

def note (n : Nat) : Code Unit := modify fun r => { r with sums := r.sums ++ [n] }

/-- Code of the kernel that reads no file. -/
def ofKernel {α : Type} (x : Kernel α) : Code α := fun r =>
  match x.run r.system with
  | .ok (a, system) => .ok (a, { r with system })
  | .error e => .error (.panic e)

/-- The bytes behind a pointer. -/
def access (data : List UInt8) (offset size : Nat) : Code (List UInt8) :=
  if offset + size ≤ data.length then return cut data offset (offset + size) else throw .outside

/-- `data[offset..offset + size]`. -/
def sliceOf (data : List UInt8) (offset size : Nat) : Code (List UInt8) := do
  note (offset + size)
  let stop := (offset + size) % 2 ^ 64
  if offset ≤ stop ∧ stop ≤ data.length then return cut data offset stop
  else throw (.panic .index)

/-! ### Headers -/

/-- The number in `width` bytes of a header. -/
def field (bytes : List UInt8) (offset width : Nat) : Nat :=
  leNat (cut bytes offset (offset + width))

structure Header where
  ePhoff : Nat
  eShoff : Nat
  ePhentsize : Nat
  ePhnum : Nat
  eShentsize : Nat
  eShnum : Nat
  eShstrndx : Nat

/-- `SIZEOF_EHDR`. -/
def sizeofEhdr : Nat := 64

def Header.ofBytes (bytes : List UInt8) : Header where
  ePhoff := field bytes 32 8
  eShoff := field bytes 40 8
  ePhentsize := field bytes 54 2
  ePhnum := field bytes 56 2
  eShentsize := field bytes 58 2
  eShnum := field bytes 60 2
  eShstrndx := field bytes 62 2

structure SectionHeader where
  shName : Nat
  shType : Nat
  shOffset : Nat
  shSize : Nat

/-- `SIZEOF_SHDR`. -/
def sizeofShdr : Nat := 64

def SectionHeader.ofBytes (bytes : List UInt8) : SectionHeader where
  shName := field bytes 0 4
  shType := field bytes 4 4
  shOffset := field bytes 24 8
  shSize := field bytes 32 8

/-- `SHT_STRTAB`. -/
def shtStrtab : Nat := 3

/-- `SIZEOF_PHDR`. -/
def sizeofPhdr : Nat := 56

def segmentOfBytes (bytes : List UInt8) : ProgramHeader where
  pType := .ofNat (field bytes 0 4)
  pFlags := .ofNat (field bytes 4 4)
  pOffset := .ofNat (field bytes 8 8)
  pVaddr := .ofNat (field bytes 16 8)
  pFilesz := .ofNat (field bytes 32 8)
  pMemsz := .ofNat (field bytes 40 8)

/-- The bytes of header `i` of a table of headers. -/
def headerAt (data : List UInt8) (table entsize size i : Nat) : Code (List UInt8) := do
  note (table + i * entsize)
  access data ((table + i * entsize) % 2 ^ 64) size

/-! ### The file -/

structure ElfFile where
  data : List UInt8
  strtab : Option (List UInt8)
  shstrtab : Option (List UInt8)
  header : Header

/-- `ElfSections::next`. -/
def sectionAt (data : List UInt8) (header : Header) (i : Nat) : Code SectionHeader :=
  return .ofBytes (← headerAt data header.eShoff header.eShentsize sizeofShdr i)

/-- `ElfSegments::next`. -/
def segmentAt (data : List UInt8) (header : Header) (i : Nat) : Code ProgramHeader :=
  return segmentOfBytes (← headerAt data header.ePhoff header.ePhentsize sizeofPhdr i)

/-- The bytes of a section. -/
def sectionData (data : List UInt8) (h : SectionHeader) : Code (List UInt8) :=
  sliceOf data h.shOffset h.shSize

/-- `find`, on the sections with these numbers. -/
def findSection (data : List UInt8) (header : Header) (p : SectionHeader → Bool) :
    List Nat → Code (Option SectionHeader)
  | [] => return none
  | i :: is => do
      let h ← sectionAt data header i
      if p h then return some h else findSection data header p is

/-- `nth`, on the sections with these numbers. -/
def nthSection (data : List UInt8) (header : Header) : Nat → List Nat → Code (Option SectionHeader)
  | _, [] => return none
  | 0, i :: _ => return some (← sectionAt data header i)
  | n + 1, i :: is => do
      let _ ← sectionAt data header i
      nthSection data header n is

/-- `map`, for the bytes of a section. -/
def dataOf (data : List UInt8) : Option SectionHeader → Code (Option (List UInt8))
  | none => return none
  | some h => return some (← sectionData data h)

/-- `ELFMAG`. -/
def elfMag : List UInt8 := [0x7f, 0x45, 0x4c, 0x46]

/-- `ELFCLASS`, of 64-bit files. -/
def elfClass : UInt8 := 2

def Header.sections (header : Header) : List Nat := List.range header.eShnum

def Header.segments (header : Header) : List Nat := List.range header.ePhnum

/-- `Elf::from`. -/
def ElfFile.ofBytes (data : List UInt8) : Code (Except String ElfFile) := do
  if data.length < sizeofEhdr then
    return .error s!"Elf: Not enough data: {data.length} < {sizeofEhdr}"
  else if data.take 4 ≠ elfMag then
    return .error s!"Elf: Invalid magic: {data.take 4} != {elfMag}"
  else if data[4]? ≠ some elfClass then
    return .error s!"Elf: Invalid architecture: Some({data.getD 4 0}) != {elfClass}"
  else
    let header := Header.ofBytes (← access data 0 sizeofEhdr)
    let strtab ← dataOf data (← findSection data header (·.shType == shtStrtab) header.sections)
    let shstrtab ← dataOf data (← nthSection data header header.eShstrndx header.sections)
    return .ok { data, strtab, shstrtab, header }

/-! ### Names of sections -/

/-- How many bytes the loop of `lookup_section_name` goes over. -/
def scanned : List UInt8 → Nat
  | [] => 0
  | b :: bytes => if b = 0 then 1 else scanned bytes + 1

/-- `from_utf8`. -/
def isUtf8 (bytes : List UInt8) : Bool := (ByteArray.mk bytes.toArray).validateUTF8

namespace ElfFile

def lookupSectionName (elf : ElfFile) (index : Nat) : Code (Option (List UInt8)) := do
  let some shstrtab := elf.shstrtab | return none
  let stop := index + scanned (shstrtab.drop index)
  if index < stop then
    if index ≤ stop - 1 ∧ stop - 1 ≤ shstrtab.length then
      let symName := cut shstrtab index (stop - 1)
      return if isUtf8 symName then some symName else none
    else throw (.panic .index)
  else return none

/-- `.manifest`. -/
def manifestName : List UInt8 := [0x2e, 0x6d, 0x61, 0x6e, 0x69, 0x66, 0x65, 0x73, 0x74]

/-- `section_data_by_name`, on the sections with these numbers. -/
def sectionDataByName (elf : ElfFile) : List Nat → Code (Option (List UInt8))
  | [] => return none
  | i :: is => do
      let h ← sectionAt elf.data elf.header i
      let some name ← elf.lookupSectionName h.shName | return none
      if name = manifestName then return some (← sectionData elf.data h)
      else sectionDataByName elf is

end ElfFile

/-! ### What the file says -/

section Contents

variable (data : List UInt8) (header : Header)

/-- Section header `i` is in the file. -/
def SectionIn (i : Nat) : Prop := header.eShoff + i * header.eShentsize + sizeofShdr ≤ data.length

/-- Program header `i` is in the file. -/
def SegmentIn (i : Nat) : Prop := header.ePhoff + i * header.ePhentsize + sizeofPhdr ≤ data.length

instance (i : Nat) : Decidable (SectionIn data header i) := inferInstanceAs (Decidable (_ ≤ _))

instance (i : Nat) : Decidable (SegmentIn data header i) := inferInstanceAs (Decidable (_ ≤ _))

def sectionHeader (i : Nat) : SectionHeader :=
  let offset := header.eShoff + i * header.eShentsize
  .ofBytes (cut data offset (offset + sizeofShdr))

def programHeader (i : Nat) : ProgramHeader :=
  let offset := header.ePhoff + i * header.ePhentsize
  segmentOfBytes (cut data offset (offset + sizeofPhdr))

/-- The bytes of a section are in the file. -/
def SectionHeader.InFile (h : SectionHeader) : Prop := h.shOffset + h.shSize ≤ data.length

instance (h : SectionHeader) : Decidable (h.InFile data) := inferInstanceAs (Decidable (_ ≤ _))

def SectionHeader.bytes (h : SectionHeader) : List UInt8 :=
  cut data h.shOffset (h.shOffset + h.shSize)

/-- The members of a list up to the first with a property, and that one. -/
def upTo {ν : Type} (p : ν → Bool) : List ν → List ν
  | [] => []
  | a :: as => a :: if p a then [] else upTo p as

end Contents

namespace ElfFile

/-- The name of a section. -/
def nameAt (elf : ElfFile) (index : Nat) : Option (List UInt8) :=
  elf.shstrtab.bind fun shstrtab =>
    let stop := index + scanned (shstrtab.drop index)
    let symName := cut shstrtab index (stop - 1)
    if index < stop ∧ isUtf8 symName then some symName else none

/-- The name of section `i`. -/
def sectionName (elf : ElfFile) (i : Nat) : Option (List UInt8) :=
  elf.nameAt (sectionHeader elf.data elf.header i).shName

/-- The search for the manifest ends at a section without a name, or at the manifest. -/
def searchEnds (elf : ElfFile) (i : Nat) : Bool :=
  decide (elf.sectionName i = none ∨ elf.sectionName i = some manifestName)

/-- The section of the manifest, among those with these numbers. -/
def manifestSection (elf : ElfFile) (is : List Nat) : Option SectionHeader :=
  (is.find? elf.searchEnds).bind fun i =>
    if elf.sectionName i = some manifestName then some (sectionHeader elf.data elf.header i) else none

end ElfFile

/-! ### Sums that wrap, once and for all -/

section Later

variable {α : Type}

theorem later_note {n : Nat} : Keeps (Later Run.Fit) (note n) :=
  .of_modify fun r h m hm => h m (List.mem_append_left _ hm)

theorem ofKernel_ok {x : Kernel α} {r : Run} {a : α} {s : System}
    (h : x.run r.system = .ok (a, s)) : (ofKernel x).run r = .ok (a, { r with system := s }) := by
  show ofKernel x r = _
  rw [ofKernel, h]

theorem ofKernel_error {x : Kernel α} {r : Run} {e : Panic} (h : x.run r.system = .error e) :
    (ofKernel x).run r = .error (.panic e) := by
  show ofKernel x r = _
  rw [ofKernel, h]

theorem ofKernel_eq_ok {x : Kernel α} {r r' : Run} {a : α} (h : (ofKernel x).run r = .ok (a, r')) :
    ∃ s, x.run r.system = .ok (a, s) ∧ r' = { r with system := s } := by
  cases hx : x.run r.system with
  | ok p =>
    cases (ofKernel_ok hx).symm.trans h
    exact ⟨p.2, rfl, rfl⟩
  | error e => cases (ofKernel_error hx).symm.trans h

theorem ofKernel_bind {β : Type} {x : Kernel α} {f : α → Kernel β} :
    ofKernel (x >>= f) = ofKernel x >>= fun a => ofKernel (f a) := by
  funext r
  cases hx : x.run r.system with
  | ok p =>
    refine Eq.trans ?_ (run_bind (ofKernel_ok hx)).symm
    show ofKernel _ _ = ofKernel _ _
    rw [ofKernel, ofKernel, run_bind hx]
  | error e => exact (ofKernel_error (run_bind_error hx)).trans (run_bind_error (ofKernel_error hx)).symm

theorem later_ofKernel (x : Kernel α) : Keeps (Later Run.Fit) (ofKernel x) := by
  intro r a r' hrun
  obtain ⟨s, -, rfl⟩ := ofKernel_eq_ok hrun
  exact id

theorem later_access {data : List UInt8} {offset size : Nat} :
    Keeps (Later Run.Fit) (access data offset size) := .guard

theorem later_sliceOf {data : List UInt8} {offset size : Nat} :
    Keeps (Later Run.Fit) (sliceOf data offset size) := later_note.bind fun _ => .guard

theorem later_sectionAt {data : List UInt8} {header : Header} {i : Nat} :
    Keeps (Later Run.Fit) (sectionAt data header i) :=
  (later_note.bind fun _ => later_access).bind fun _ => .pure _

theorem later_segmentAt {data : List UInt8} {header : Header} {i : Nat} :
    Keeps (Later Run.Fit) (segmentAt data header i) :=
  (later_note.bind fun _ => later_access).bind fun _ => .pure _

theorem later_findSection {data : List UInt8} {header : Header} {p : SectionHeader → Bool}
    {is : List Nat} : Keeps (Later Run.Fit) (findSection data header p is) := by
  induction is with
  | nil => exact .pure _
  | cons i is ih =>
    refine later_sectionAt.bind fun h => ?_
    split
    · exact .pure _
    · exact ih

theorem later_nthSection {data : List UInt8} {header : Header} {n : Nat} {is : List Nat} :
    Keeps (Later Run.Fit) (nthSection data header n is) := by
  induction is generalizing n with
  | nil =>
    rw [nthSection]
    exact .pure _
  | cons i is ih =>
    cases n with
    | zero => exact later_sectionAt.bind fun _ => .pure _
    | succ n => exact later_sectionAt.bind fun _ => ih

theorem later_dataOf {data : List UInt8} {o : Option SectionHeader} :
    Keeps (Later Run.Fit) (dataOf data o) := by
  cases o with
  | none => exact .pure _
  | some h => exact later_sliceOf.bind fun _ => .pure _

theorem later_lookupSectionName {elf : ElfFile} {index : Nat} :
    Keeps (Later Run.Fit) (elf.lookupSectionName index) := by
  rw [ElfFile.lookupSectionName]
  split
  · dsimp only
    split
    · split
      · exact .pure _
      · exact .throw _
    · exact .pure _
  · exact .pure _

theorem later_sectionDataByName {elf : ElfFile} {is : List Nat} :
    Keeps (Later Run.Fit) (elf.sectionDataByName is) := by
  induction is with
  | nil => exact .pure _
  | cons i is ih =>
    refine later_sectionAt.bind fun h => later_lookupSectionName.bind fun name => ?_
    split
    · split
      · exact later_sliceOf.bind fun _ => .pure _
      · exact ih
    · exact .pure _

end Later

/-! ### When the steps return -/

/-- Under the condition the code returns `a` and leaves the kernel alone; and otherwise it does not
return, or a sum wraps. -/
def Reads {α : Type} (x : Code α) (r : Run) (c : Prop) (a : α) : Prop :=
  Decided Run.Fit x r c fun b r' => b = a ∧ r'.system = r.system

namespace Reads

variable {α β : Type} {x : Code α} {f : α → Code β} {r : Run} {c d : Prop} {a : α} {b : β}

theorem pure (hr : r.Fit) : Reads (Pure.pure a : Code α) r True a := Decided.pure hr ⟨rfl, rfl⟩

theorem guard [Decidable c] {e : Stop} (hr : r.Fit) :
    Reads (if c then Pure.pure a else throw e) r c a := Decided.guard hr ⟨rfl, rfl⟩

theorem congr (h : Reads x r c a) (hiff : c ↔ d) : Reads x r d a := Decided.congr h hiff

theorem value (h : Reads x r c a) {a' : α} (heq : c → a = a') : Reads x r c a' :=
  Decided.mono h fun hc _ _ hQ => ⟨hQ.1.trans (heq hc), hQ.2⟩

theorem bind (hx : Reads x r c a)
    (hf : ∀ r₁ : Run, r₁.Fit → r₁.system = r.system → Reads (f a) r₁ d b)
    (hlater : ∀ a, Keeps (Later Run.Fit) (f a)) : Reads (x >>= f) r (c ∧ d) b := by
  refine Decided.bind hx ?_ hlater
  rintro _ r₁ hr₁ ⟨rfl, hsystem⟩
  exact Decided.mono (hf r₁ hr₁ hsystem) fun _ _ _ hQ => ⟨hQ.1, hQ.2.trans hsystem⟩

theorem after (hrun : x.run r = .ok (a, r)) (h : Reads (f a) r d b) : Reads (x >>= f) r d b :=
  Decided.after hrun h

theorem bind_pure (h : Reads x r c a) (g : α → β) : Reads (x >>= fun a => Pure.pure (g a)) r c (g a) := by
  have hpure : ∀ r₁ : Run, r₁.Fit → r₁.system = r.system →
      Reads (Pure.pure (g a) : Code β) r₁ True (g a) := fun _ hr₁ _ => pure hr₁
  exact (h.bind (f := fun a => Pure.pure (g a)) hpure fun _ => .pure _).congr (and_iff_left trivial)

theorem returns (h : Reads x r c a) (hc : c) :
    ∃ r', x.run r = .ok (a, r') ∧ r'.Fit ∧ r'.system = r.system := by
  obtain ⟨_, r', hrun, hr', rfl, hsystem⟩ := Decided.returns h hc
  exact ⟨r', hrun, hr', hsystem⟩

end Reads

/-- Under the condition the code does what code of the kernel does, with some more sums; and
otherwise it does not return, or a sum wraps. -/
structure Acts {α : Type} (x : Code α) (r : Run) (c : Prop) (k : Kernel α) : Prop where
  acts : c → ∃ sums, Run.Fit ⟨r.system, sums⟩ ∧ x.run r = (ofKernel k).run ⟨r.system, sums⟩
  fails : ¬ c → ∀ a r', x.run r = .ok (a, r') → ¬ r'.Fit

namespace Acts

variable {α β : Type} {x : Code α} {f : α → Code β} {k : Kernel α} {h : α → Kernel β} {r r' : Run}
  {c d : Prop} {a : α}

theorem pure (hr : r.Fit) : Acts (Pure.pure a : Code α) r True (Pure.pure a) :=
  ⟨fun _ => ⟨r.sums, hr, rfl⟩, fun hnot => absurd trivial hnot⟩

theorem congr (hx : Acts x r c k) (hiff : c ↔ d) : Acts x r d k := propext hiff ▸ hx

/-- First the file is read. -/
theorem after (hx : Reads x r c a) {k : Kernel β}
    (hf : ∀ r₁ : Run, r₁.Fit → r₁.system = r.system → Acts (f a) r₁ d k)
    (hlater : ∀ a, Keeps (Later Run.Fit) (f a)) : Acts (x >>= f) r (c ∧ d) k := by
  constructor
  · rintro ⟨hc, hd⟩
    obtain ⟨r₁, hrun, hr₁, hsystem⟩ := hx.returns hc
    obtain ⟨sums, hfit, hacts⟩ := (hf r₁ hr₁ hsystem).acts hd
    rw [hsystem] at hfit hacts
    exact ⟨sums, hfit, (run_bind hrun).trans hacts⟩
  · intro hnot b r₂ hrun hr₂
    obtain ⟨a', r₁, hrun₁, hrun₂⟩ := run_bind_eq_ok hrun
    have hr₁ : r₁.Fit := hlater a' r₁ b r₂ hrun₂ hr₂
    by_cases hc : c
    · obtain ⟨-, rfl, hsystem⟩ := Decided.ensures hx hc a' r₁ hrun₁
      exact (hf r₁ hr₁ hsystem).fails (fun hd => hnot ⟨hc, hd⟩) b r₂ hrun₂ hr₂
    · exact Decided.fails hx hc a' r₁ hrun₁ hr₁

/-- First the kernel acts. -/
theorem seq (hr : r.Fit) (hf : ∀ a s, Acts (f a) ⟨s, r.sums⟩ d (h a)) :
    Acts (ofKernel k >>= f) r d (k >>= h) := by
  refine ⟨fun hd => ?_, fun hnot b r₂ hrun => ?_⟩
  · cases hk : k.run r.system with
    | error e =>
      refine ⟨r.sums, hr, (run_bind_error (ofKernel_error hk)).trans ?_⟩
      exact (ofKernel_error (run_bind_error hk)).symm
    | ok p =>
      obtain ⟨sums, hfit, hacts⟩ := (hf p.1 p.2).acts hd
      refine ⟨sums, hfit, ((run_bind (ofKernel_ok hk)).trans hacts).trans ?_⟩
      rw [ofKernel_bind, run_bind (ofKernel_ok (r := ⟨r.system, sums⟩) hk)]
  · obtain ⟨a, r₁, hrun₁, hrun₂⟩ := run_bind_eq_ok hrun
    obtain ⟨s, -, rfl⟩ := ofKernel_eq_ok hrun₁
    exact (hf a s).fails hnot b r₂ hrun₂

theorem bind_pure (hx : Acts x r c k) (g : α → β) :
    Acts (x >>= fun a => Pure.pure (g a)) r c (k >>= fun a => Pure.pure (g a)) := by
  refine ⟨fun hc => ?_, fun hnot b r₂ hrun => ?_⟩
  · obtain ⟨sums, hfit, hacts⟩ := hx.acts hc
    refine ⟨sums, hfit, ?_⟩
    rw [ofKernel_bind, StateT.run_bind, StateT.run_bind, hacts]
    rfl
  · obtain ⟨a, r₁, hrun₁, hrun₂⟩ := run_bind_eq_ok hrun
    cases hrun₂
    exact hx.fails hnot a r₂ hrun₁

/-- No sum wraps. -/
theorem fit (hx : Acts x r c k) (hc : c) : Ensures x r fun _ r' => r'.Fit := by
  intro a r' hrun
  obtain ⟨sums, hfit, hacts⟩ := hx.acts hc
  obtain ⟨s, -, rfl⟩ := ofKernel_eq_ok (hacts.symm.trans hrun)
  exact hfit

theorem refines (hx : Acts x r c k) (hrun : x.run r = .ok (a, r')) (hfit : r'.Fit) :
    k.run r.system = .ok (a, r'.system) := by
  have hc : c := Classical.byContradiction fun hnot => hx.fails hnot a r' hrun hfit
  obtain ⟨sums, -, hacts⟩ := hx.acts hc
  obtain ⟨s, hk, rfl⟩ := ofKernel_eq_ok (hacts.symm.trans hrun)
  exact hk

/-- What decides the code of the kernel decides the rest. -/
theorem decided {Q : α → System → Prop} (hx : Acts x r c k)
    (hk : Decided (fun _ => True) k r.system d Q) :
    Decided Run.Fit x r (c ∧ d) fun a r' => Q a r'.system := by
  refine ⟨fun ⟨hc, hd⟩ => ?_, fun hnot a r' hrun hfit => ?_⟩
  · obtain ⟨sums, hfit, hacts⟩ := hx.acts hc
    obtain ⟨a, s, hrun, -, hQ⟩ := hk.returns hd
    exact ⟨a, ⟨s, sums⟩, hacts.trans (ofKernel_ok hrun), hfit, hQ⟩
  · have hc : c := Classical.byContradiction fun hc => hx.fails hc a r' hrun hfit
    exact hk.fails (fun hd => hnot ⟨hc, hd⟩) a r'.system (hx.refines hrun hfit) trivial

end Acts

section Steps

variable {data : List UInt8} {header : Header} {r : Run}

theorem note_decided (hr : r.Fit) (n : Nat) :
    Reads (note n) r (n < 2 ^ 64) () := by
  refine ⟨fun hn => ⟨(), _, rfl, ?_, rfl, rfl⟩, fun hn _ r' hrun hfit => ?_⟩
  · intro m hm
    rcases List.mem_append.mp hm with hm | hm
    · exact hr m hm
    · exact List.mem_singleton.mp hm ▸ hn
  · cases hrun
    exact hn (hfit n (by simp))

theorem access_decided (hr : r.Fit) (data : List UInt8) (offset size : Nat) :
    Reads (access data offset size) r (offset + size ≤ data.length)
      (cut data offset (offset + size)) := .guard hr

theorem sliceOf_decided (hr : r.Fit) (hlen : data.length < 2 ^ 64) (offset size : Nat) :
    Reads (sliceOf data offset size) r (offset + size ≤ data.length)
      (cut data offset (offset + size)) := by
  have hstep : Reads (sliceOf data offset size) r _ _ :=
    (note_decided hr (offset + size)).bind (fun _ hr₁ _ => .guard hr₁) fun _ => .guard
  refine (hstep.congr ?_).value fun h => by rw [Nat.mod_eq_of_lt (by omega)]
  constructor
  · rintro ⟨hlt, -, hle⟩
    rwa [Nat.mod_eq_of_lt hlt] at hle
  · intro hle
    have hlt : offset + size < 2 ^ 64 := by omega
    rw [Nat.mod_eq_of_lt hlt]
    exact ⟨hlt, Nat.le_add_right .., hle⟩

theorem headerAt_decided (hr : r.Fit) (hlen : data.length < 2 ^ 64) (table entsize size i : Nat) :
    Reads (headerAt data table entsize size i) r
      (table + i * entsize + size ≤ data.length)
      (cut data (table + i * entsize) (table + i * entsize + size)) := by
  have hstep : Reads (headerAt data table entsize size i) r _ _ :=
    (note_decided hr _).bind (fun _ hr₁ _ => access_decided hr₁ ..) fun _ => later_access
  refine (hstep.congr ?_).value fun h => by rw [Nat.mod_eq_of_lt (by omega)]
  constructor
  · rintro ⟨hlt, hle⟩
    rwa [Nat.mod_eq_of_lt hlt] at hle
  · intro hle
    have hlt : table + i * entsize < 2 ^ 64 := by omega
    rw [Nat.mod_eq_of_lt hlt]
    exact ⟨hlt, hle⟩

theorem sectionAt_decided (hr : r.Fit) (hlen : data.length < 2 ^ 64) (header : Header) (i : Nat) :
    Reads (sectionAt data header i) r (SectionIn data header i)
      (sectionHeader data header i) :=
  (headerAt_decided hr hlen ..).bind_pure _

theorem segmentAt_decided (hr : r.Fit) (hlen : data.length < 2 ^ 64) (header : Header) (i : Nat) :
    Reads (segmentAt data header i) r (SegmentIn data header i)
      (programHeader data header i) :=
  (headerAt_decided hr hlen ..).bind_pure _

theorem findSection_decided (hr : r.Fit) (hlen : data.length < 2 ^ 64) (header : Header)
    (p : SectionHeader → Bool) (is : List Nat) :
    Reads (findSection data header p is) r
      (∀ i ∈ upTo (fun i => p (sectionHeader data header i)) is, SectionIn data header i)
      ((is.find? fun i => p (sectionHeader data header i)).map (sectionHeader data header)) := by
  induction is generalizing r with
  | nil => exact (Reads.pure hr).congr (by simp [upTo])
  | cons i is ih =>
    rw [upTo, List.forall_mem_cons]
    refine (sectionAt_decided hr hlen header i).bind (fun r₁ hr₁ _ => ?_) fun h => ?_
    · rw [List.find?_cons]
      cases p (sectionHeader data header i) with
      | true => exact (Reads.pure hr₁).congr (by simp)
      | false => exact ih hr₁
    · split
      · exact .pure _
      · exact later_findSection

theorem nthSection_decided (hr : r.Fit) (hlen : data.length < 2 ^ 64) (header : Header) (n : Nat)
    (is : List Nat) :
    Reads (nthSection data header n is) r
      (∀ i ∈ is.take (n + 1), SectionIn data header i) (is[n]?.map (sectionHeader data header)) := by
  induction is generalizing r n with
  | nil =>
    rw [nthSection]
    exact (Reads.pure hr).congr (by simp)
  | cons i is ih =>
    cases n with
    | zero => exact ((sectionAt_decided hr hlen header i).bind_pure _).congr (by simp)
    | succ n =>
      rw [List.take_succ_cons, List.forall_mem_cons, List.getElem?_cons_succ]
      exact (sectionAt_decided hr hlen header i).bind (fun r₁ hr₁ _ => ih hr₁ n)
        fun _ => later_nthSection

theorem dataOf_decided (hr : r.Fit) (hlen : data.length < 2 ^ 64) (o : Option SectionHeader) :
    Reads (dataOf data o) r (∀ h ∈ o, h.InFile data)
      (o.map (·.bytes data)) := by
  cases o with
  | none => exact (Reads.pure hr).congr (by simp)
  | some h => exact ((sliceOf_decided hr hlen ..).bind_pure _).congr (by simp [SectionHeader.InFile])

end Steps

section Names

variable {elf : ElfFile} {r : Run}

theorem scanned_le (bytes : List UInt8) : scanned bytes ≤ bytes.length := by
  induction bytes with
  | nil => exact le_rfl
  | cons b bytes ih =>
    rw [scanned, List.length_cons]
    split
    · omega
    · omega

/-- A name is looked up inside the table of names. -/
theorem lookupSectionName_run (elf : ElfFile) (index : Nat) :
    (elf.lookupSectionName index).run r = .ok (elf.nameAt index, r) := by
  rw [ElfFile.lookupSectionName, ElfFile.nameAt]
  cases elf.shstrtab with
  | none => rfl
  | some shstrtab =>
    have hscanned := scanned_le (shstrtab.drop index)
    rw [List.length_drop] at hscanned
    simp only [Option.bind_some]
    by_cases hname : index < index + scanned (shstrtab.drop index)
    · rw [if_pos hname, if_pos (by omega)]
      simp only [hname, true_and]
      rfl
    · rw [if_neg hname, if_neg fun h => hname h.1]
      rfl

theorem manifestSection_cons (elf : ElfFile) (i : Nat) (is : List Nat) :
    elf.manifestSection (i :: is) =
      match elf.sectionName i with
      | none => none
      | some name =>
          if name = ElfFile.manifestName then some (sectionHeader elf.data elf.header i)
          else elf.manifestSection is := by
  rw [ElfFile.manifestSection, ElfFile.manifestSection, List.find?_cons]
  cases hname : elf.sectionName i with
  | none =>
    have hends : elf.searchEnds i = true := decide_eq_true (.inl hname)
    simp [hends, hname]
  | some name =>
    by_cases hmanifest : name = ElfFile.manifestName
    · have hends : elf.searchEnds i = true := decide_eq_true (.inr (hmanifest ▸ hname))
      simp [hends, hname, hmanifest]
    · have hends : elf.searchEnds i = false := decide_eq_false (by simp [hname, hmanifest])
      simp only [hends, hmanifest, if_false]

/-- The bytes of the manifest are found when the sections up to it are in the file, and it is. -/
theorem sectionDataByName_decided (hr : r.Fit) (hlen : elf.data.length < 2 ^ 64) (is : List Nat) :
    Reads (elf.sectionDataByName is) r
      ((∀ i ∈ upTo elf.searchEnds is, SectionIn elf.data elf.header i) ∧
        ∀ h ∈ elf.manifestSection is, h.InFile elf.data)
      ((elf.manifestSection is).map (·.bytes elf.data)) := by
  induction is generalizing r with
  | nil => exact (Reads.pure hr).congr (by simp [upTo, ElfFile.manifestSection])
  | cons i is ih =>
    have hlater : ∀ h, Keeps (Later Run.Fit) (do
        let some name ← elf.lookupSectionName (SectionHeader.shName h) | return none
        if name = ElfFile.manifestName then return some (← sectionData elf.data h)
        else elf.sectionDataByName is) := by
      refine fun h => later_lookupSectionName.bind fun name => ?_
      split
      · split
        · exact later_sliceOf.bind fun _ => .pure _
        · exact later_sectionDataByName
      · exact .pure _
    rw [upTo, List.forall_mem_cons, and_assoc, manifestSection_cons]
    refine (sectionAt_decided hr hlen elf.header i).bind (fun r₁ hr₁ _ => ?_) hlater
    refine .after (lookupSectionName_run elf _) ?_
    show Reads (match elf.sectionName i with
      | some name => _
      | _ => _) _ _ _
    cases hname : elf.sectionName i with
    | none =>
      have hends : elf.searchEnds i = true := decide_eq_true (.inl hname)
      exact (Reads.pure hr₁).congr (by simp [hends])
    | some name =>
      dsimp only
      by_cases hmanifest : name = ElfFile.manifestName
      · have hends : elf.searchEnds i = true := decide_eq_true (.inr (hmanifest ▸ hname))
        rw [if_pos hmanifest, if_pos hmanifest, hends]
        exact ((sliceOf_decided hr₁ hlen ..).bind_pure _).congr (by simp [SectionHeader.InFile])
      · have hends : elf.searchEnds i = false := decide_eq_false (by simp [hname, hmanifest])
        rw [if_neg hmanifest, if_neg hmanifest, hends]
        exact ih hr₁

end Names

/-! ### When `Elf::from` returns -/

/-- The file begins like an ELF file. -/
@[mk_iff]
structure IsElf (data : List UInt8) : Prop where
  length : sizeofEhdr ≤ data.length
  magic : data.take 4 = elfMag
  class64 : data[4]? = some elfClass

instance (data : List UInt8) : Decidable (IsElf data) := decidable_of_iff' _ (isElf_iff data)

section File

variable (data : List UInt8)

def fileHeader : Header := .ofBytes (cut data 0 sizeofEhdr)

def isStrtab (i : Nat) : Bool := (sectionHeader data (fileHeader data) i).shType == shtStrtab

/-- The first table of strings. -/
def strtabSection : Option SectionHeader :=
  ((fileHeader data).sections.find? (isStrtab data)).map (sectionHeader data (fileHeader data))

/-- The table of the names of the sections. -/
def shstrtabSection : Option SectionHeader :=
  (fileHeader data).sections[(fileHeader data).eShstrndx]?.map (sectionHeader data (fileHeader data))

def elfFile : ElfFile where
  data
  strtab := (strtabSection data).map (·.bytes data)
  shstrtab := (shstrtabSection data).map (·.bytes data)
  header := fileHeader data

/-- The two tables of strings are in the file, and so are the section headers up to them. -/
structure TablesIn : Prop where
  strtabHeaders : ∀ i ∈ upTo (isStrtab data) (fileHeader data).sections,
    SectionIn data (fileHeader data) i
  strtab : ∀ h ∈ strtabSection data, h.InFile data
  shstrtabHeaders : ∀ i ∈ (fileHeader data).sections.take ((fileHeader data).eShstrndx + 1),
    SectionIn data (fileHeader data) i
  shstrtab : ∀ h ∈ shstrtabSection data, h.InFile data

end File

section OfBytes

variable {data : List UInt8} {r : Run}

theorem ofBytes_not_elf (h : ¬ IsElf data) :
    ∃ e, (ElfFile.ofBytes data).run r = .ok (.error e, r) := by
  rw [ElfFile.ofBytes]
  split
  · exact ⟨_, rfl⟩
  · next hlength =>
    split
    · exact ⟨_, rfl⟩
    · next hmagic =>
      split
      · exact ⟨_, rfl⟩
      · next hclass =>
        exact absurd ⟨Nat.le_of_not_lt hlength, not_not.mp hmagic, not_not.mp hclass⟩ h

/-- `Elf::from` returns a file when its tables are in the data, and otherwise it does not return,
or goes wrong. -/
theorem ofBytes_decided (hr : r.Fit) (hlen : data.length < 2 ^ 64) (h : IsElf data) :
    Reads (ElfFile.ofBytes data) r (TablesIn data) (.ok (elfFile data)) := by
  rw [ElfFile.ofBytes, if_neg (Nat.not_lt.mpr h.length), if_neg (not_not.mpr h.magic),
    if_neg (not_not.mpr h.class64)]
  have htables : (0 + sizeofEhdr ≤ data.length ∧ (∀ i ∈ upTo (isStrtab data) (fileHeader data).sections,
        SectionIn data (fileHeader data) i) ∧ (∀ h ∈ strtabSection data, h.InFile data) ∧
      (∀ i ∈ (fileHeader data).sections.take ((fileHeader data).eShstrndx + 1),
        SectionIn data (fileHeader data) i) ∧ ∀ h ∈ shstrtabSection data, h.InFile data) ↔
      TablesIn data :=
    ⟨fun ⟨_, h₁, h₂, h₃, h₄⟩ => ⟨h₁, h₂, h₃, h₄⟩,
      fun ⟨h₁, h₂, h₃, h₄⟩ => ⟨(Nat.zero_add _).trans_le h.length, h₁, h₂, h₃, h₄⟩⟩
  refine Reads.congr ?_ htables
  refine (access_decided hr data 0 sizeofEhdr).bind (fun r₁ hr₁ _ => ?_) fun _ =>
    later_findSection.bind fun _ => later_dataOf.bind fun _ => later_nthSection.bind fun _ =>
      later_dataOf.bind fun _ => .pure _
  refine (findSection_decided hr₁ hlen (fileHeader data) _ _).bind (fun r₂ hr₂ _ => ?_) fun _ =>
    later_dataOf.bind fun _ => later_nthSection.bind fun _ => later_dataOf.bind fun _ => .pure _
  refine (dataOf_decided hr₂ hlen (strtabSection data)).bind (fun r₃ hr₃ _ => ?_) fun _ =>
    later_nthSection.bind fun _ => later_dataOf.bind fun _ => .pure _
  refine (nthSection_decided hr₃ hlen (fileHeader data) _ _).bind (fun r₄ hr₄ _ => ?_) fun _ =>
    later_dataOf.bind fun _ => .pure _
  exact (dataOf_decided hr₄ hlen (shstrtabSection data)).bind_pure _

end OfBytes

end Faastr.Loader
