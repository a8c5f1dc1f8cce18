import Faastr.Lib.LittleEndian
import Mathlib.Data.List.TakeWhile

/-!
The walk over a PCI function's capability list.

`pci_find_capability` of `devices/pci/msix.rs` follows the list from the pointer
at `0x34`. It keeps the whole word that a pointer was read from: the end of the
list is tested on the word, an entry is read at its low byte, and the word is
what it returns.

- `Chain` is the list itself, followed through the 8-bit pointers.
- While it is on the list, the walk reads the entries of the list
  (`walk_on_chain`), whatever the words hold above the pointers.
- So it is right when the one word that matters holds nothing there
  (`pciFindCapability_follows`): the word that leads to the entry looked for, or else
  the one that ends the list. When there is such an entry, it is right only then.
-/

namespace Faastr.Devices

open Faastr.Lib

/-! ### Configuration space -/

/-- The 256 bytes of a function's configuration space. -/
abbrev ConfigSpace := Fin 256 → UInt8

namespace ConfigSpace

variable (cfg : ConfigSpace)

/-- The byte at `o as u8`. -/
def byte (o : Nat) : Nat := (cfg (Fin.ofNat 256 o)).toNat

/-- `dev.read(o)`: the little-endian word at `o & 0xFC`. -/
def read (o : Nat) : Nat :=
  leNat ((List.range 4).map fun k => cfg (Fin.ofNat 256 (o / 4 * 4 + k)))

theorem byte_lt (o : Nat) : cfg.byte o < 256 := (cfg (Fin.ofNat 256 o)).toNat_lt

theorem read_eq (o : Nat) :
    cfg.read o = cfg.byte (o / 4 * 4) + 256 * (cfg.byte (o / 4 * 4 + 1)
      + 256 * (cfg.byte (o / 4 * 4 + 2) + 256 * cfg.byte (o / 4 * 4 + 3))) := by
  simp [read, byte, List.range, List.range.loop, leNat]

/-- Only the low byte of an offset counts. -/
theorem byte_truncate (o : Nat) : cfg.byte (o % 256) = cfg.byte o := by
  simp [byte, Fin.ofNat]

theorem read_truncate (o : Nat) : cfg.read (o % 256) = cfg.read o := by
  have hoffset : ∀ k, Fin.ofNat 256 (o % 256 / 4 * 4 + k) = Fin.ofNat 256 (o / 4 * 4 + k) := by
    intro k
    apply Fin.ext
    simp only [Fin.ofNat]
    omega
  simp only [read, hoffset]

/-- The low byte of a word is the byte at its address. -/
theorem read_mod (o : Nat) : cfg.read o % 256 = cfg.byte (o / 4 * 4) := by
  have hlt := cfg.byte_lt (o / 4 * 4)
  rw [read_eq]
  omega

/-- The second byte of a word is the byte behind. -/
theorem read_div_mod (o : Nat) : cfg.read o / 256 % 256 = cfg.byte (o / 4 * 4 + 1) := by
  have hlt := cfg.byte_lt (o / 4 * 4)
  have hlt' := cfg.byte_lt (o / 4 * 4 + 1)
  rw [read_eq]
  omega

end ConfigSpace

/-- Truncating to a byte commutes with dropping the two low bits. -/
theorem aligned_mod (pos : Nat) : pos / 4 * 4 % 256 = pos % 256 / 4 * 4 := by omega

/-! ### The walk -/

/-- `PCI_CAPABILITY_LIST`. -/
def pciCapabilityList : Nat := 0x34

variable (cfg : ConfigSpace) (cap : Nat)

/-- The loop of `pci_find_capability`. `pos` is a `u32`. -/
def walk : Nat → Nat → Nat
  | 0, _ => 0
  | ttl + 1, pos =>
    if pos < 0x40 then 0
    else
      -- `pos &= !3`
      let pos := pos / 4 * 4
      let ent := cfg.read (pos % 256)
      let id := ent % 256
      if id = 0xff then 0
      else if id = cap then pos
      else walk ttl (ent / 256)

/-- `pci_find_capability`. -/
def pciFindCapability : Nat := walk cfg cap 48 (cfg.read pciCapabilityList)

/-! ### The list -/

/-- The entries of the list from the pointer `p` on: an entry begins at its pointer
without the two low bits, with its id and the next pointer, and a pointer below
`0x40` ends the list. -/
inductive Chain : Nat → List Nat → Prop
  | done {p : Nat} : p < 0x40 → Chain p []
  | entry {p : Nat} {es : List Nat} : 0x40 ≤ p → Chain (cfg.byte (p / 4 * 4 + 1)) es →
      Chain p (p / 4 * 4 :: es)

/-- The word that leads on behind the entries `es`, the first one being led to by
`pos`: an entry's word without its id. Its low byte is the pointer. -/
def pointerWord (pos : Nat) : List Nat → Nat
  | [] => pos
  | e :: es => pointerWord (cfg.read e / 256) es

/-- The entries before the first one with the id `cap`: all of them, if there is none. -/
def passed (es : List Nat) : List Nat := es.takeWhile fun e => cfg.byte e ≠ cap

/-- The word that leads to the first entry with the id `cap`, or ends the list if there
is none, holds nothing above its pointer. -/
def PointersClear (es : List Nat) : Prop :=
  pointerWord cfg (cfg.read pciCapabilityList) (passed cfg cap es) < 256

variable {cfg cap}

/-- One round of the walk, in terms of the bytes. -/
theorem walk_succ (ttl pos : Nat) :
    walk cfg cap (ttl + 1) pos =
      if pos < 0x40 ∨ cfg.byte (pos / 4 * 4) = 0xff then 0
      else if cfg.byte (pos / 4 * 4) = cap then pos / 4 * 4
      else walk cfg cap ttl (cfg.read (pos / 4 * 4) / 256) := by
  have haligned : pos / 4 * 4 / 4 * 4 = pos / 4 * 4 := by omega
  have hid : cfg.read (pos / 4 * 4) % 256 = cfg.byte (pos / 4 * 4) := by
    rw [cfg.read_mod, haligned]
  simp only [walk, cfg.read_truncate, hid]
  by_cases hend : pos < 0x40
  · rw [if_pos hend, if_pos (Or.inl hend)]
  · by_cases hff : cfg.byte (pos / 4 * 4) = 0xff
    · rw [if_neg hend, if_pos hff, if_pos (Or.inr hff)]
    · rw [if_neg hend, if_neg hff, if_neg (not_or.mpr ⟨hend, hff⟩)]

/-- **The walk stays on the list** as long as it meets neither the id it looks for nor
its end, whatever the words hold above the pointers. -/
theorem walk_on_chain (ttl : Nat) {before rest : List Nat} {pos : Nat}
    (hchain : Chain cfg (pos % 256) (before ++ rest)) (hff : ∀ e ∈ before, cfg.byte e ≠ 0xff)
    (hcap : ∀ e ∈ before, cfg.byte e ≠ cap) :
    walk cfg cap (before.length + ttl) pos = walk cfg cap ttl (pointerWord cfg pos before) ∧
      Chain cfg (pointerWord cfg pos before % 256) rest := by
  induction before generalizing pos with
  | nil =>
    rw [List.length_nil, Nat.zero_add]
    exact ⟨rfl, hchain⟩
  | cons e before ih =>
    cases hchain with
    | entry hp hnext =>
      -- The entry lies at the pointer, and only the low byte of `pos` counts for it.
      have hbyte : cfg.byte (pos / 4 * 4) = cfg.byte (pos % 256 / 4 * 4) := by
        rw [← cfg.byte_truncate, aligned_mod]
      have hread : cfg.read (pos / 4 * 4) = cfg.read (pos % 256 / 4 * 4) := by
        rw [← cfg.read_truncate, aligned_mod]
      have hff' := hff _ List.mem_cons_self
      have hcap' := hcap _ List.mem_cons_self
      have hpointer : cfg.read (pos % 256 / 4 * 4) / 256 % 256
          = cfg.byte (pos % 256 / 4 * 4 + 1) := by
        rw [cfg.read_div_mod]
        congr 1
        omega
      have hstep : walk cfg cap (before.length + ttl + 1) pos
          = walk cfg cap (before.length + ttl) (cfg.read (pos % 256 / 4 * 4) / 256) := by
        rw [walk_succ, hbyte, hread, if_neg (by omega), if_neg hcap']
      rw [List.length_cons, Nat.add_right_comm, hstep, pointerWord]
      apply ih
      · rw [hpointer]
        exact hnext
      · exact fun b hb => hff b (List.mem_cons_of_mem _ hb)
      · exact fun b hb => hcap b (List.mem_cons_of_mem _ hb)

/-- What the walk returns when the list has an entry with the id. -/
theorem pciFindCapability_found {before after : List Nat} {e : Nat}
    (hchain : Chain cfg (cfg.byte pciCapabilityList) (before ++ e :: after))
    (hlength : (before ++ e :: after).length ≤ 48)
    (hff : ∀ b ∈ before ++ e :: after, cfg.byte b ≠ 0xff)
    (hbefore : ∀ b ∈ before, cfg.byte b ≠ cap) (hcap : cfg.byte e = cap) :
    pciFindCapability cfg cap = pointerWord cfg (cfg.read pciCapabilityList) before / 4 * 4 ∧
      e = pointerWord cfg (cfg.read pciCapabilityList) before % 256 / 4 * 4 := by
  have hstart : cfg.read pciCapabilityList % 256 = cfg.byte pciCapabilityList := cfg.read_mod _
  rw [← hstart] at hchain
  obtain ⟨hwalk, hrest⟩ := walk_on_chain (48 - before.length) hchain
    (fun b hb => hff b (List.mem_append_left _ hb)) hbefore
  rw [List.length_append, List.length_cons] at hlength
  rw [show before.length + (48 - before.length) = 48 by omega] at hwalk
  rw [pciFindCapability, hwalk]
  generalize pointerWord cfg (cfg.read pciCapabilityList) before = pos at hrest ⊢
  cases hrest with
  | entry hp _ =>
    have hbyte : cfg.byte (pos / 4 * 4) = cfg.byte (pos % 256 / 4 * 4) := by
      rw [← cfg.byte_truncate, aligned_mod]
    have hff' : cfg.byte (pos % 256 / 4 * 4) ≠ 0xff := hff _ (by simp)
    have hleft : 48 - before.length = (47 - before.length) + 1 := by omega
    rw [hleft, walk_succ, hbyte, if_neg (by omega), if_pos hcap]
    exact ⟨rfl, rfl⟩

/-- Where a pointer word ends the list with nothing above its pointer, the walk ends too. -/
theorem pciFindCapability_missing {es : List Nat}
    (hchain : Chain cfg (cfg.byte pciCapabilityList) es) (hlength : es.length ≤ 48)
    (hff : ∀ e ∈ es, cfg.byte e ≠ 0xff) (hcap : ∀ e ∈ es, cfg.byte e ≠ cap)
    (hclear : pointerWord cfg (cfg.read pciCapabilityList) es < 256) :
    pciFindCapability cfg cap = 0 := by
  have hstart : cfg.read pciCapabilityList % 256 = cfg.byte pciCapabilityList := cfg.read_mod _
  rw [← hstart, ← List.append_nil es] at hchain
  obtain ⟨hwalk, hrest⟩ := walk_on_chain (48 - es.length) hchain hff hcap
  rw [Nat.add_sub_cancel' hlength] at hwalk
  rw [pciFindCapability, hwalk]
  -- The pointer is the whole word, and it is below `0x40`.
  rw [Nat.mod_eq_of_lt hclear] at hrest
  cases hrest with
  | done hend =>
    cases 48 - es.length with
    | zero => rfl
    | succ ttl => rw [walk_succ, if_pos (Or.inl hend)]

theorem passed_of_split {before after : List Nat} {e : Nat}
    (hbefore : ∀ b ∈ before, cfg.byte b ≠ cap) (hcap : cfg.byte e = cap) :
    passed cfg cap (before ++ e :: after) = before := by
  rw [passed, List.takeWhile_append_of_pos (by simpa using hbefore)]
  simp [hcap]

theorem passed_of_missing {es : List Nat} (hcap : ∀ e ∈ es, cfg.byte e ≠ cap) :
    passed cfg cap es = es :=
  List.takeWhile_eq_self_iff.mpr (by simpa using hcap)

/-- **`pci_find_capability` follows the list when the word that matters holds nothing
above its pointer.** For a list of at most 48 entries without the id `0xff`, it then
returns the offset of the first entry with the id, or 0; and if there is an entry with
the id, it does so only then. -/
theorem pciFindCapability_follows (cfg : ConfigSpace) (cap : Nat) (es : List Nat)
    (hchain : Chain cfg (cfg.byte pciCapabilityList) es) (hlength : es.length ≤ 48)
    (hff : ∀ e ∈ es, cfg.byte e ≠ 0xff) :
    (PointersClear cfg cap es →
      pciFindCapability cfg cap = (es.find? fun e => cfg.byte e = cap).getD 0 ∧
        pciFindCapability cfg cap < 256) ∧
    ((∃ e ∈ es, cfg.byte e = cap) → pciFindCapability cfg cap < 256 →
      PointersClear cfg cap es) := by
  cases hfind : es.find? fun e => cfg.byte e = cap with
  | some e =>
    obtain ⟨hcap, before, after, rfl, hbefore⟩ := List.find?_eq_some_iff_append.mp hfind
    simp only [decide_eq_true_eq, Bool.not_eq_true', decide_eq_false_iff_not] at hcap hbefore
    obtain ⟨hresult, he⟩ := pciFindCapability_found hchain hlength hff hbefore hcap
    rw [PointersClear, passed_of_split hbefore hcap, hresult, Option.getD_some]
    constructor
    · intro hclear
      omega
    · intro _ hsmall
      omega
  | none =>
    have hcap : ∀ e ∈ es, cfg.byte e ≠ cap := by simpa using hfind
    rw [PointersClear, passed_of_missing hcap, Option.getD_none]
    constructor
    · intro hclear
      rw [pciFindCapability_missing hchain hlength hff hcap hclear]
      exact ⟨rfl, by decide⟩
    · rintro ⟨e, he, hid⟩ -
      exact absurd hid (hcap e he)

/-- A function with two capabilities: the id `5` at `0x40` with `control` in the word's
upper half, and the id `0x11` behind it at `0x50`. -/
def twoCapabilities (control : UInt8) : ConfigSpace := fun o =>
  if o = 0x34 then 0x40 else if o = 0x40 then 5 else if o = 0x41 then 0x50
  else if o = 0x42 then control else if o = 0x50 then 0x11 else 0

theorem twoCapabilities_chain (control : UInt8) :
    Chain (twoCapabilities control) ((twoCapabilities control).byte pciCapabilityList)
      [0x40, 0x50] := by
  have hlast : Chain (twoCapabilities control) 0x50 [0x50] :=
    .entry (p := 0x50) (by decide) (.done (p := 0) (by decide))
  exact .entry (p := 0x40) (by decide) hlast

theorem twoCapabilities_ids (control : UInt8) :
    ∀ e ∈ [0x40, 0x50], (twoCapabilities control).byte e ≠ 0xff := by
  intro e he
  obtain rfl | rfl : e = 0x40 ∨ e = 0x50 := by simpa using he
  · exact (by decide : (5 : Nat) ≠ 0xff)
  · exact (by decide : (0x11 : Nat) ≠ 0xff)

/-- Without anything in the upper half the second capability is found where it is. -/
theorem second_capability_found :
    PointersClear (twoCapabilities 0) 0x11 [0x40, 0x50] ∧
      pciFindCapability (twoCapabilities 0) 0x11 = 0x50 := by
  have hclear : PointersClear (twoCapabilities 0) 0x11 [0x40, 0x50] := by
    unfold PointersClear
    decide +kernel
  have hfollows := pciFindCapability_follows _ 0x11 _ (twoCapabilities_chain 0) (by decide)
    (twoCapabilities_ids 0)
  refine ⟨hclear, (hfollows.1 hclear).1.trans ?_⟩
  decide +kernel

/-- With a bit in the upper half of the first capability's word, the second one is
reported at `0x8050`. -/
theorem control_bits_returned :
    Chain (twoCapabilities 0x80) ((twoCapabilities 0x80).byte pciCapabilityList) [0x40, 0x50] ∧
      pciFindCapability (twoCapabilities 0x80) 0x11 = 0x8050 :=
  ⟨twoCapabilities_chain 0x80, by decide +kernel⟩

end Faastr.Devices
