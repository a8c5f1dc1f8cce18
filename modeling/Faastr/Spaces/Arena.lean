import Faastr.Spaces.Resize
import Faastr.Spaces.Spawn

/-!
The arguments of a context as an arena: values are put one behind another, and stay.

`append_encode` (`kernel/src/context/memory.rs`) takes the next bytes of the memory, and
gives the memory more pages when there are too few left. It asks for as many as hold the
whole old length and the new values.

* `Holds`: a memory in its place, with the bytes that were appended so far.
* `appendEncode_fits`, `appendEncode_grows`, `appendEncode_needs_room`: one call.
* `append_only_iff`: every sequence of calls leaves the bytes of each call at the address
  that it returned, exactly when each growth finds its pages free and the memory is one
  that `map_context` has mapped. A kernel context's is not: its pages are in use by the
  mapping that is its place.
-/

namespace Faastr.Spaces

open Faastr.Lib Faastr.Memory Faastr.Paging

/-- The byte that the running context finds at an address. -/
def System.byteAt (s : System) (address : Nat) : Option UInt8 :=
  (s.lookup s.cr3 (address / pageSize)).map fun e => s.memory (e.1 * pageSize + address % pageSize)

/-- An encoder that writes every byte of its slice. -/
structure Encoder extends Sos where
  bytes : List UInt8
  length : bytes.length = encodedLen
  writes : ∀ buf, buf.length = encodedLen → ∃ n, encode buf = .ok (bytes, n)

/-- The bytes that values take together. -/
def total (values : List Encoder) : Nat := (values.map fun e => e.encodedLen).sum

theorem total_cons (e : Encoder) (values : List Encoder) :
    total (e :: values) = e.encodedLen + total values := by
  rw [total, List.map_cons, List.sum_cons, total]

/-- Calls of `append_encode`: the addresses that they return. -/
def ContextValues.appendAll (v : ContextValues) : List Encoder → Kernel (List Nat × ContextValues)
  | [] => return ([], v)
  | e :: values => do
      let (address, v) ← v.appendEncode e.toSos
      let (addresses, v) ← v.appendAll values
      return (address :: addresses, v)

/-- The calls return, each with the address behind the values of the earlier ones; no
offset is beyond the end, and after each call all values so far are where they were put. -/
def AppendOnly (v : ContextValues) (address : Nat) (values : List Encoder) (s : System) : Prop :=
  ∀ k, k ≤ values.length → ∃ v' s',
    (v.appendAll (values.take k)).run s =
      .ok (((List.range k).map fun i => address + total (values.take i), v'), s') ∧
    (∃ m, v'.memory = some m ∧ v'.offset ≤ m.lenBytes) ∧
    ∀ i e, i < k → values[i]? = some e → ∀ j b, e.bytes[j]? = some b →
      s'.byteAt (address + total (values.take i) + j) = some b

/-- The numbers of pages that a memory grows to when values of these lengths are
appended. -/
def growths (length offset : Nat) : List Nat → List Nat
  | [] => []
  | need :: needs =>
      if need ≤ length - offset then growths length (offset + need) needs
      else
        let n := (length + need + (pageSize - 1)) / pageSize
        n :: growths (n * pageSize) (offset + need) needs

/-! ### Rounding up -/

theorem and_pages {x : Nat} (hx : x < 2 ^ 64) : x &&& (2 ^ 64 - pageSize) = x / pageSize * pageSize := by
  have hmask : 2 ^ 64 - pageSize = (2 ^ 52 - 1) <<< 12 := by decide
  have hshift : x / pageSize * pageSize = x >>> 12 <<< 12 := by
    rw [Nat.shiftLeft_eq, Nat.shiftRight_eq_div_pow, pageSize]
  rw [hmask, hshift]
  apply Nat.eq_of_testBit_eq
  intro i
  rw [Nat.testBit_and, Nat.testBit_shiftLeft, Nat.testBit_shiftLeft, Nat.testBit_shiftRight,
    Nat.testBit_two_pow_sub_one]
  by_cases hlow : i < 12
  · simp [Nat.not_le.mpr hlow]
  · by_cases hhigh : i < 64
    · simp [show 12 ≤ i by omega, show i - 12 < 52 by omega, show 12 + (i - 12) = i by omega]
    · have hbit : x.testBit i = false :=
        Nat.testBit_lt_two_pow (Nat.lt_of_lt_of_le hx (Nat.pow_le_pow_right (by decide) (by omega)))
      simp [hbit, show 12 + (i - 12) = i by omega]

theorem alignUp_pages (x : Nat) :
    alignUp x pageSize / pageSize = (x + (pageSize - 1)) % 2 ^ 64 / pageSize := by
  rw [alignUp, and_pages (Nat.mod_lt _ (by decide)), Nat.mul_div_cancel _ (by decide)]

/-- Without an overflow the memory grows to the pages for all of it, and with one to
fewer than it needs. -/
theorem grown_pages {length offset need : Nat} (hlength : length < 2 ^ 64)
    (hpages : length % pageSize = 0) (hneed : length - offset < need) :
    alignUp ((length + need) % 2 ^ 64) pageSize / pageSize = (length + need + (pageSize - 1)) / pageSize ∨
    alignUp ((length + need) % 2 ^ 64) pageSize / pageSize * pageSize < offset + need ∧
      2 ^ 64 ≤ (length + need + (pageSize - 1)) / pageSize * pageSize + pageSize := by
  rw [alignUp_pages]
  simp only [pageSize] at *
  omega

/-! ### One call -/

/-- A memory in its place, with the bytes that were appended. -/
structure Holds (v : ContextValues) (contents : List UInt8) (m : ContextMemory)
    (mapping : VallocMapping) (page : Nat) (s : System) : Prop where
  memory : v.memory = some m
  place : InPlace m mapping page s
  offset : v.offset = contents.length
  fits : contents.length ≤ m.lenBytes
  short : m.lenBytes < 2 ^ 64
  bytes : ∀ j b, contents[j]? = some b → s.memory (m.frames.start * pageSize + j) = b

/-- An allocation failed. -/
def Exhausted (panic : Panic) : Prop := panic = .expected "Resize failed" ∨ panic = noFrames

namespace Holds

variable {v : ContextValues} {contents : List UInt8} {m : ContextMemory} {mapping : VallocMapping}
  {page : Nat} {s : System} {e : Encoder}

/-- The running context finds the bytes. -/
theorem byteAt (h : Holds v contents m mapping page s) {j : Nat} {b : UInt8}
    (hb : contents[j]? = some b) : s.byteAt (m.contextAddress + j) = some b := by
  have hj : j < contents.length := (List.getElem?_eq_some_iff.mp hb).1
  have hlen := h.fits
  have hbyte := h.bytes j b hb
  have hk : j / pageSize < m.frames.count := by
    rw [ContextMemory.lenBytes] at hlen
    exact Nat.div_lt_of_lt_mul (by rw [Nat.mul_comm]; omega)
  have hpage : (m.contextAddress + j) / pageSize = page + j / pageSize := by
    rw [h.place.address, Nat.mul_comm, Nat.mul_add_div (by decide)]
  have hrest : (m.contextAddress + j) % pageSize = j % pageSize := by
    rw [h.place.address, Nat.mul_comm, Nat.mul_add_mod]
  have hframe : (m.frames.start + j / pageSize) * pageSize + j % pageSize =
      m.frames.start * pageSize + j := by
    rw [Nat.add_mul, Nat.add_assoc, Nat.div_add_mod']
  have hlookup : ∃ flags, s.lookup s.cr3 (page + j / pageSize) =
      some (m.frames.start + j / pageSize, flags) := by
    cases hmapped : m.contextMapped with
    | true =>
      obtain ⟨top, htop, huser, -⟩ := h.place.below hmapped
      exact ⟨_, (if_pos (by omega)).trans (h.place.context hmapped _ hk)⟩
    | false =>
      have hhigh := h.place.mapped.high
      have hkernel := h.place.mapped.kernel (j / pageSize) (h.place.frames ▸ hk)
      rw [h.place.frames] at hkernel
      rw [h.place.kernel hmapped]
      exact ⟨_, (if_neg (Nat.not_lt.mpr (Nat.le_trans hhigh (Nat.le_add_right _ _)))).trans hkernel⟩
  obtain ⟨flags, hlookup⟩ := hlookup
  rw [System.byteAt, hpage, hlookup, hrest]
  simp only [Option.map_some, hframe, hbyte]

/-- The bytes of the encoder go behind the others, once there is room for them. -/
theorem append (h : Holds v contents m mapping page s) {v₀ : ContextValues} {m₀ : ContextMemory}
    {s₀ : System} (hm₀ : v₀.memory = some m₀) (hoffset : v₀.offset = contents.length)
    (hgrow : (v₀.grow m₀ e.encodedLen).run s₀ = .ok (m, s))
    (hroom : contents.length + e.encodedLen ≤ m.lenBytes) :
    ∃ v' s', (v₀.appendEncode e.toSos).run s₀ = .ok ((m.contextAddress + contents.length, v'), s') ∧
      Holds v' (contents ++ e.bytes) m mapping page s' ∧ s'.user = s.user ∧ s'.cr3 = s.cr3 := by
  have hlen : v₀.offset + e.encodedLen ≤ mapping.len := by
    rw [VallocMapping.len, h.place.frames, hoffset]
    exact hroom
  obtain ⟨out, n, hencode, hrun⟩ := ContextValues.appendEncode_run hm₀ hgrow h.place.mapping
    h.place.unshared h.place.writable hlen
  obtain ⟨n', hwrites⟩ := e.writes ((List.range e.encodedLen).map fun i =>
    s.memory (mapping.frames.start * pageSize + v₀.offset + i)) (by simp)
  cases hwrites.symm.trans hencode
  rw [hoffset] at hrun
  refine ⟨_, _, hrun, ⟨rfl, h.place.congr rfl rfl rfl rfl rfl, ?_, ?_, h.short, ?_⟩, rfl, rfl⟩
  · simp [e.length]
  · simpa [e.length] using hroom
  · intro j b hb
    dsimp only [VallocMapping.filled]
    rw [h.place.frames]
    by_cases hj : j < contents.length
    · rw [if_neg (by omega)]
      exact h.bytes j b (by rwa [List.getElem?_append_left hj] at hb)
    · have hlt := (List.getElem?_eq_some_iff.mp hb).1
      rw [List.length_append, e.length] at hlt
      rw [List.getElem?_append_right (by omega)] at hb
      rw [if_pos (by omega), show m.frames.start * pageSize + j -
        (m.frames.start * pageSize + contents.length) = j - contents.length by omega,
        List.getD_eq_getElem?_getD, hb, Option.getD_some]

theorem appendEncode_fits (h : Holds v contents m mapping page s)
    (hfits : e.encodedLen ≤ m.lenBytes - contents.length) :
    ∃ v' s', (v.appendEncode e.toSos).run s = .ok ((m.contextAddress + contents.length, v'), s') ∧
      Holds v' (contents ++ e.bytes) m mapping page s' ∧ s'.user = s.user ∧ s'.cr3 = s.cr3 := by
  have hlen := h.fits
  have hshort := h.short
  have hroom : e.encodedLen ≤ (m.lenBytes + 2 ^ 64 - v.offset) % 2 ^ 64 := by
    rw [h.offset]
    omega
  exact h.append h.memory h.offset (ContextValues.grow_run_of_room hroom) (by omega)

/-- What `append_encode` asks `resize` for. -/
theorem grow_eq (h : Holds v contents m mapping page s)
    (hneed : ¬ e.encodedLen ≤ m.lenBytes - contents.length) : v.grow m e.encodedLen = (do
      expect (← m.resize (alignUp ((m.lenBytes + e.encodedLen) % 2 ^ 64) pageSize / pageSize))
        "Resize failed") := by
  have hlen := h.fits
  have hshort := h.short
  rw [ContextValues.grow, h.offset, if_pos (by omega)]

/-- A memory with room grows, unless an allocation fails. -/
theorem appendEncode_grows (h : Holds v contents m mapping page s)
    (hneed : ¬ e.encodedLen ≤ m.lenBytes - contents.length) (hmapped : m.contextMapped = true)
    {n : Nat} (hn : n = (m.lenBytes + e.encodedLen + (pageSize - 1)) / pageSize)
    (hroom : RoomFor m page n s) :
    (∃ panic, Exhausted panic ∧ (v.appendEncode e.toSos).run s = .error panic) ∨
    ∃ v' m' mapping' s', (v.appendEncode e.toSos).run s =
        .ok ((m'.contextAddress + contents.length, v'), s') ∧
      Holds v' (contents ++ e.bytes) m' mapping' page s' ∧ m'.contextMapped = true ∧
      m'.frames.count = n ∧ ∀ k, n ≤ k → s'.user s'.cr3 (page + k) = s.user s.cr3 (page + k) := by
  have hlen := h.fits
  obtain ⟨top, -, hbelow, huser, -⟩ := h.place.room_below hmapped hroom
  have hpages : alignUp ((m.lenBytes + e.encodedLen) % 2 ^ 64) pageSize / pageSize = n := by
    rcases grown_pages h.short (Nat.mul_mod_left _ _) (Nat.lt_of_not_le hneed) with heq | ⟨-, hover⟩
    · rw [heq, hn]
    · rw [← hn] at hover
      simp only [pageSize, userPages] at *
      omega
  have hgrows : m.frames.count ≤ n := by
    rw [hn]
    simp only [ContextMemory.lenBytes, pageSize]
    omega
  have hexpect : (expect v.memory "No argument memory mapped!").run s = .ok (m, s) := by
    rw [h.memory]
    rfl
  have hpos := Nat.lt_of_lt_of_le h.place.positive hgrows
  rcases h.place.resize_replaces hmapped hpos hroom with
    ⟨-, hfails⟩ | ⟨m', mapping', s₁, hsome, hreplaced⟩
  · left
    have hgrow : ∃ panic, Exhausted panic ∧ (v.grow m e.encodedLen).run s = .error panic := by
      rw [h.grow_eq hneed, hpages]
      rcases hfails with herror | ⟨s₁, -, hnone⟩
      · exact ⟨_, .inr rfl, run_bind_error herror⟩
      · exact ⟨_, .inl rfl, run_bind hnone⟩
    obtain ⟨panic, hpanic, hgrow⟩ := hgrow
    exact ⟨panic, hpanic, (run_bind hexpect).trans (run_bind_error hgrow)⟩
  · right
    have hgrow : (v.grow m e.encodedLen).run s = .ok (m', s₁) := by
      rw [h.grow_eq hneed, hpages, run_bind hsome]
      rfl
    have hlonger : m.lenBytes + e.encodedLen ≤ m'.lenBytes ∧ m'.lenBytes < 2 ^ 64 := by
      rw [ContextMemory.lenBytes, ContextMemory.lenBytes, hreplaced.count, hn]
      simp only [ContextMemory.lenBytes, pageSize, userPages] at *
      omega
    have hholds : Holds ⟨some m', contents.length⟩ contents m' mapping' page s₁ :=
      ⟨rfl, hreplaced.place, rfl, by omega, hlonger.2, fun j b hb => by
        have hj := (List.getElem?_eq_some_iff.mp hb).1
        have hbytes := Nat.mul_le_mul_right pageSize hgrows
        rw [hreplaced.bytes j (by simp only [ContextMemory.lenBytes] at *; omega),
          if_pos (by omega), h.bytes j b hb]⟩
    obtain ⟨v', s', hrun, hholds', huser', hcr3⟩ := hholds.append h.memory h.offset hgrow (by omega)
    refine ⟨v', m', mapping', s', hrun, hholds', hreplaced.mapped, hreplaced.count, fun k hk => ?_⟩
    rw [huser', hcr3, hreplaced.cr3, hreplaced.above k hk, if_neg (by omega)]

/-- A call that had to grow had room. -/
theorem appendEncode_needs_room (h : Holds v contents m mapping page s)
    (hneed : ¬ e.encodedLen ≤ m.lenBytes - contents.length) {r : Nat × ContextValues} {s' : System}
    (hrun : (v.appendEncode e.toSos).run s = .ok (r, s')) : m.contextMapped = true ∧
      RoomFor m page ((m.lenBytes + e.encodedLen + (pageSize - 1)) / pageSize) s := by
  suffices hens : Ensures (v.appendEncode e.toSos) s fun _ _ => m.contextMapped = true ∧
      RoomFor m page ((m.lenBytes + e.encodedLen + (pageSize - 1)) / pageSize) s from hens _ _ hrun
  refine .bind (ensures_orPanic fun m₀ hm₀ => ?_)
  cases h.memory.symm.trans hm₀
  refine .bind fun m' s₁ hgrow => ?_
  rw [h.grow_eq hneed] at hgrow
  obtain ⟨o, s₂, hresize, hexpect⟩ := run_bind_eq_ok hgrow
  cases o with
  | none => cases hexpect
  | some m₁ =>
    cases hexpect
    rcases grown_pages h.short (Nat.mul_mod_left _ _) (Nat.lt_of_not_le hneed) with heq | ⟨hfew, -⟩
    · rw [heq] at hresize
      have hpos : 0 < (m.lenBytes + e.encodedLen + (pageSize - 1)) / pageSize := by
        simp only [pageSize]
        omega
      exact fun _ _ _ => h.place.resize_needs_room hpos hresize
    · -- The size overflowed: the slice is beyond the end of the new memory.
      obtain ⟨hcount, hframes⟩ := ContextMemory.resize_shape _ _ hresize m' rfl
      refine .seq ContextMemory.asSliceMut_spec fun mapping' s₃ hspec => ?_
      obtain ⟨-, hmapping⟩ := hspec
      refine .seq VallocMapping.read_spec fun _ _ hread => ?_
      obtain ⟨-, -, hslice⟩ := hread
      rw [VallocMapping.len, hframes mapping' hmapping, hcount, h.offset] at hslice
      exact absurd hslice (by omega)

end Holds

/-! ### Sequences of calls -/

section Sequences

variable {v : ContextValues} {contents : List UInt8} {m m' : ContextMemory} {mapping : VallocMapping}
  {page n : Nat} {s s' : System} {values : List Encoder}

/-- Growing takes nothing of the room above. -/
theorem roomFor_iff (hroom : RoomFor m page n s) (hle : m.frames.count ≤ n)
    (hcount : m'.frames.count = n)
    (habove : ∀ k, n ≤ k → s'.user s'.cr3 (page + k) = s.user s.cr3 (page + k)) (n' : Nat) :
    RoomFor m' page n' s' ↔ RoomFor m page n' s := by
  constructor
  · intro h k hk hlt huser
    by_cases hlow : k < n
    · exact hroom k hk hlow huser
    · rw [← habove k (by omega), h k (by omega) hlt huser]
  · intro h k hk hlt huser
    rw [habove k (by omega), h k (by omega) hlt huser]

/-- Each growth of a sequence has room. -/
def Roomy (m : ContextMemory) (page : Nat) (s : System) (offset : Nat) (values : List Encoder) : Prop :=
  ∀ n ∈ growths m.lenBytes offset (values.map fun e => e.encodedLen),
    m.contextMapped = true ∧ RoomFor m page n s

theorem roomy_cons_fits {e : Encoder} {offset : Nat} (hfits : e.encodedLen ≤ m.lenBytes - offset) :
    Roomy m page s offset (e :: values) ↔ Roomy m page s (offset + e.encodedLen) values := by
  rw [Roomy, List.map_cons, growths, if_pos hfits, Roomy]

/-- After a growth there are the growths of the larger memory. -/
theorem roomy_cons_grows {e : Encoder} {offset : Nat} (hneed : ¬ e.encodedLen ≤ m.lenBytes - offset)
    (hn : n = (m.lenBytes + e.encodedLen + (pageSize - 1)) / pageSize)
    (hmapped : m.contextMapped = true) (hmapped' : m'.contextMapped = true)
    (hroom : RoomFor m page n s) (hcount : m'.frames.count = n)
    (habove : ∀ k, n ≤ k → s'.user s'.cr3 (page + k) = s.user s.cr3 (page + k)) :
    Roomy m page s offset (e :: values) ↔ Roomy m' page s' (offset + e.encodedLen) values := by
  have hle : m.frames.count ≤ n := by
    rw [hn]
    simp only [ContextMemory.lenBytes, pageSize]
    omega
  have hlen : m'.lenBytes = n * pageSize := by rw [ContextMemory.lenBytes, hcount]
  simp only [Roomy, List.map_cons, growths, if_neg hneed, ← hn, hlen, List.forall_mem_cons, hmapped,
    hmapped', hroom, true_and, roomFor_iff hroom hle hcount habove]

theorem appendAll_cons {e : Encoder} {address : Nat} {v' : ContextValues}
    (h : (v.appendEncode e.toSos).run s = .ok ((address, v'), s')) :
    (v.appendAll (e :: values)).run s = (do
      let (addresses, v) ← v'.appendAll values
      return (address :: addresses, v)).run s' := run_bind h

/-- Calls that return had room. -/
theorem roomy_of_appendAll (h : Holds v contents m mapping page s) {r : List Nat × ContextValues}
    (hrun : (v.appendAll values).run s = .ok (r, s')) : Roomy m page s contents.length values := by
  induction values generalizing v contents m mapping s r s' with
  | nil => simp [Roomy, growths]
  | cons e values ih =>
    by_cases hfits : e.encodedLen ≤ m.lenBytes - contents.length
    · obtain ⟨v₁, s₁, happend, hholds, huser, hcr3⟩ := h.appendEncode_fits hfits
      rw [appendAll_cons happend] at hrun
      obtain ⟨_, _, hrest, -⟩ := run_bind_eq_ok hrun
      have hrest := ih hholds hrest
      rw [List.length_append, e.length] at hrest
      simp only [Roomy, RoomFor, huser, hcr3] at hrest
      exact (roomy_cons_fits hfits).mpr hrest
    · obtain ⟨r₁, s₁, happend, -⟩ := run_bind_eq_ok hrun
      obtain ⟨hmapped, hroom⟩ := h.appendEncode_needs_room hfits happend
      rcases h.appendEncode_grows hfits hmapped rfl hroom with
        ⟨_, -, herror⟩ | ⟨v₁, m₁, mapping₁, s₁, happend, hholds, hmapped₁, hcount, habove⟩
      · cases herror.symm.trans happend
      · rw [appendAll_cons happend] at hrun
        obtain ⟨_, _, hrest, -⟩ := run_bind_eq_ok hrun
        have hrest := ih hholds hrest
        rw [List.length_append, e.length] at hrest
        exact (roomy_cons_grows hfits rfl hmapped hmapped₁ hroom hcount habove).mpr hrest

/-- The addresses behind one another. -/
def addresses (address : Nat) (values : List Encoder) : List Nat :=
  (List.range values.length).map fun i => address + total (values.take i)

theorem addresses_cons {e : Encoder} {address : Nat} : addresses address (e :: values) =
    address :: addresses (address + e.encodedLen) values := by
  simp [addresses, List.range_succ_eq_map, Function.comp_def, Nat.add_assoc, total]

/-- With room for every growth the calls return, unless an allocation fails. -/
theorem appendAll_holds (h : Holds v contents m mapping page s)
    (hroomy : Roomy m page s contents.length values) :
    (∃ panic, Exhausted panic ∧ (v.appendAll values).run s = .error panic) ∨
    ∃ v' m' mapping' s', (v.appendAll values).run s =
        .ok ((addresses (page * pageSize + contents.length) values, v'), s') ∧
      Holds v' (contents ++ (values.map fun e => e.bytes).flatten) m' mapping' page s' := by
  induction values generalizing v contents m mapping s with
  | nil => exact .inr ⟨v, m, mapping, s, rfl, by simpa using h⟩
  | cons e values ih =>
    suffices hstep : (∃ panic, Exhausted panic ∧ (v.appendEncode e.toSos).run s = .error panic) ∨
        ∃ v₁ m₁ mapping₁ s₁, (v.appendEncode e.toSos).run s =
            .ok ((page * pageSize + contents.length, v₁), s₁) ∧
          Holds v₁ (contents ++ e.bytes) m₁ mapping₁ page s₁ ∧
          Roomy m₁ page s₁ (contents.length + e.encodedLen) values by
      rcases hstep with ⟨panic, hpanic, herror⟩ | ⟨v₁, m₁, mapping₁, s₁, happend, hholds, hroomy₁⟩
      · exact .inl ⟨panic, hpanic, run_bind_error herror⟩
      · rw [← e.length, ← List.length_append] at hroomy₁
        rw [appendAll_cons happend]
        rcases ih hholds hroomy₁ with ⟨panic, hpanic, herror⟩ | ⟨v', m', mapping', s', hrest, hholds'⟩
        · exact .inl ⟨panic, hpanic, run_bind_error herror⟩
        · refine .inr ⟨v', m', mapping', s', ?_, ?_⟩
          · rw [run_bind hrest, addresses_cons, List.length_append, e.length, Nat.add_assoc]
            rfl
          · rwa [List.append_assoc] at hholds'
    by_cases hfits : e.encodedLen ≤ m.lenBytes - contents.length
    · obtain ⟨v₁, s₁, happend, hholds, huser, hcr3⟩ := h.appendEncode_fits hfits
      rw [h.place.address] at happend
      refine .inr ⟨v₁, m, mapping, s₁, happend, hholds, ?_⟩
      rw [roomy_cons_fits hfits] at hroomy
      simpa only [Roomy, RoomFor, huser, hcr3] using hroomy
    · obtain ⟨hmapped, hroom⟩ := hroomy ((m.lenBytes + e.encodedLen + (pageSize - 1)) / pageSize) (by
        rw [List.map_cons, growths, if_neg hfits]
        exact List.mem_cons_self)
      rcases h.appendEncode_grows hfits hmapped rfl hroom with
        herror | ⟨v₁, m₁, mapping₁, s₁, happend, hholds, hmapped₁, hcount, habove⟩
      · exact .inl herror
      · rw [hholds.place.address] at happend
        exact .inr ⟨v₁, m₁, mapping₁, s₁, happend, hholds,
          (roomy_cons_grows hfits rfl hmapped hmapped₁ hroom hcount habove).mp hroomy⟩

theorem appendAll_append (values' : List Encoder) : v.appendAll (values ++ values') = (do
    let (addresses, v) ← v.appendAll values
    let (addresses', v) ← v.appendAll values'
    return (addresses ++ addresses', v)) := by
  induction values generalizing v with
  | nil => simp [ContextValues.appendAll]
  | cons e values ih => simp [ContextValues.appendAll, ih]

/-- A call that fails is the last one. -/
theorem appendAll_error {panic : Panic} {k : Nat}
    (h : (v.appendAll (values.take k)).run s = .error panic) :
    (v.appendAll values).run s = .error panic := by
  rw [← List.take_append_drop k values, appendAll_append]
  exact run_bind_error h

theorem mem_growths_of_take {length offset k : Nat} {needs : List Nat}
    (h : n ∈ growths length offset (needs.take k)) : n ∈ growths length offset needs := by
  induction needs generalizing length offset k with
  | nil => simpa using h
  | cons need needs ih =>
    cases k with
    | zero => cases h
    | succ k =>
      rw [List.take_succ_cons, growths] at h
      rw [growths]
      split at h
      · next hfits => exact if_pos hfits ▸ ih h
      · next hneed =>
        rw [if_neg hneed]
        rcases List.mem_cons.mp h with rfl | h
        · exact List.mem_cons_self
        · exact List.mem_cons_of_mem _ (ih h)

/-- Each value in the bytes of all of them. -/
theorem getElem?_flatten {i j : Nat} {e : Encoder} {b : UInt8} (he : values[i]? = some e)
    (hb : e.bytes[j]? = some b) :
    (values.map fun e => e.bytes).flatten[total (values.take i) + j]? = some b := by
  induction values generalizing i with
  | nil => cases he
  | cons e₀ values ih =>
    cases i with
    | zero =>
      cases he
      have hj := (List.getElem?_eq_some_iff.mp hb).1
      simpa [total, List.getElem?_append_left hj] using hb
    | succ i =>
      have hrest := ih (by simpa using he)
      rw [List.take_succ_cons, total_cons, List.map_cons, List.flatten_cons,
        List.getElem?_append_right (by rw [e₀.length]; omega), e₀.length, ← hrest]
      congr 1
      omega

/-- **The arguments of a context are an append-only arena** as far as there is room: with
every allocation succeeding, any calls leave the bytes of each of them at the address it
returned exactly when the memory is mapped by `map_context` or never grows, and each
growth finds its pages free. -/
theorem append_only_iff (hmemory : v.memory = some m) (hoffset : v.offset = 0)
    (h : InPlace m mapping page s) (hshort : m.lenBytes < 2 ^ 64)
    (halloc : ∀ panic, Exhausted panic → (v.appendAll values).run s ≠ .error panic) :
    AppendOnly v m.contextAddress values s ↔ Roomy m page s 0 values := by
  have hholds : Holds v [] m mapping page s :=
    ⟨hmemory, h, hoffset, Nat.zero_le _, hshort, fun j b hb => by simp at hb⟩
  constructor
  · intro happend
    obtain ⟨v', s', hrun, -⟩ := happend values.length (Nat.le_refl _)
    rw [List.take_length] at hrun
    exact roomy_of_appendAll hholds hrun
  · intro hroomy k hk
    have hroomyTake : Roomy m page s 0 (values.take k) := fun n hn =>
      hroomy n (mem_growths_of_take (by rwa [List.map_take] at hn))
    rcases appendAll_holds hholds hroomyTake with
      ⟨panic, hpanic, herror⟩ | ⟨v', m', mapping', s', hrun, hholds'⟩
    · exact absurd (appendAll_error herror) (halloc panic hpanic)
    · have haddresses : addresses (page * pageSize) (values.take k) =
          (List.range k).map fun i => m.contextAddress + total (values.take i) := by
        rw [addresses, List.length_take, Nat.min_eq_left hk]
        refine List.map_congr_left fun i hi => ?_
        rw [List.take_take, Nat.min_eq_left (List.mem_range.mp hi).le, h.address]
      refine ⟨v', s', ?_, ⟨m', hholds'.memory, ?_⟩, ?_⟩
      · rw [hrun, List.length_nil, Nat.add_zero, haddresses]
      · rw [hholds'.offset]
        exact hholds'.fits
      · intro i e hi he j b hb
        have hcontents := @getElem?_flatten (values.take k) i j e b
          (by rwa [List.getElem?_take_of_lt hi]) hb
        rw [List.take_take, Nat.min_eq_left hi.le] at hcontents
        have hbyte := hholds'.byteAt hcontents
        rw [hholds'.place.address, ← h.address, ← Nat.add_assoc] at hbyte
        exact hbyte

end Sequences

/-! ### Arguments of a context, and of a kernel context -/

/-- `EncodedValues`: encoded already, and copied. -/
def encodedValues (bytes : List UInt8) : Encoder where
  encodedLen := bytes.length
  encode buf := do
    let out ← copyFromSlice buf bytes
    return (out, bytes.length)
  exact buf h := by
    rw [copyFromSlice_of_length_eq h]
    exact ⟨bytes, bytes.length, rfl⟩
  bytes := bytes
  length := rfl
  writes buf h := by
    rw [copyFromSlice_of_length_eq h]
    exact ⟨bytes.length, rfl⟩

/-- A context in table 1, with a page of arguments in frame 7 and a heap in frame 8. Frames 2 to 6
and 9 to 12 are the tables on the way to them. -/
def arenaSystem : System where
  user table page :=
    if table = 1 then
      if page = userArgOffset / pageSize then some (7, userFlags)
      else if page = userHeapOffset / pageSize then some (8, userFlags) else none
    else none
  kernel page := if page = userPages then some (7, cloneFlags) else none
  cr3 := 1
  recursive := 1
  frames := .firstFit 1000 2 16
  tables id := ((path 1 (userArgOffset / pageSize) ++ path 1 (userHeapOffset / pageSize) ++
    path 1 userPages).zip [2, 3, 4, 5, 6, 9, 10, 11, 12]).lookup id
  pages := .firstFit (userPages + 1) 1 8
  deallocated := []
  memory _ := 0

def arenaMapping : VallocMapping := ⟨⟨userPages, 1⟩, cloneFlags, ⟨7, 1⟩⟩

def arenaMemory : ContextMemory := ⟨some arenaMapping, userArgOffset, true, ⟨7, 1⟩, userFlags, false⟩

theorem arenaMemory_inPlace :
    InPlace arenaMemory arenaMapping (userArgOffset / pageSize) arenaSystem where
  mapping := rfl
  frames := rfl
  mapped := ⟨rfl, by decide, Nat.le_refl _, fun k hk => by
    have hk : k = 0 := Nat.lt_one_iff.mp hk
    subst hk
    rfl⟩
  writable := by decide
  unshared := rfl
  recursive := rfl
  vacant page hpage := by
    have hle : userPages + 1 ≤ page := of_decide_eq_true hpage
    exact ⟨by omega, if_neg (by omega)⟩
  address := by decide
  context _ k hk := by
    have hk : k = 0 := Nat.lt_one_iff.mp hk
    subst hk
    rfl
  below _ := ⟨userHeapOffset / pageSize, by decide, by decide, by decide⟩
  kernel h := Bool.noConfusion h

/-- The second value makes the memory grow to two pages. -/
def arenaValues : List Encoder :=
  [encodedValues (List.replicate 3000 1), encodedValues (List.replicate 3000 2)]

theorem arenaValues_append_only :
    AppendOnly ⟨some arenaMemory, 0⟩ arenaMemory.contextAddress arenaValues arenaSystem := by
  have hruns : finds (ContextValues.appendAll ⟨some arenaMemory, 0⟩ arenaValues) arenaSystem
      (fun _ _ => true) = true := by decide +kernel
  refine (append_only_iff rfl rfl arenaMemory_inPlace (by decide) ?_).mpr ?_
  · intro panic _ herror
    obtain ⟨_, _, hok, -⟩ := exists_of_finds hruns
    cases herror.symm.trans hok
  · intro n hn
    have hgrowths : growths arenaMemory.lenBytes 0 (arenaValues.map fun e => e.encodedLen) = [2] := by
      decide +kernel
    rw [hgrowths, List.mem_singleton] at hn
    refine ⟨rfl, fun k hcount hk _ => ?_⟩
    have hcount : 1 ≤ k := hcount
    obtain rfl : k = 1 := by omega
    rfl

theorem new_takes_frames {s : System} {count address : Nat} {flags : EntryFlags} :
    Ensures (ContextMemory.new count address flags) s fun o s' => (∃ frames, s' = { s with frames }) ∧
      ∀ m, o = some m → 0 < m.frames.count ∧ m = ⟨none, address, false, m.frames, flags, false⟩ := by
  refine .bind (ensures_check fun hpos => .bind fun o s₁ hrun => ?_)
  rw [Frames.new_run] at hrun
  split at hrun
  · cases hrun
    refine .pure ⟨⟨_, rfl⟩, ?_⟩
    rintro _ ⟨⟩
    exact ⟨Nat.pos_of_ne_zero (by simpa using hpos), rfl⟩
  · cases hrun
    exact .pure ⟨⟨s.frames, rfl⟩, by simp⟩

/-- What `new_kernel` makes is in its place: the one at which the kernel maps it. -/
theorem newKernel_inPlace {s : System} {count : Nat} {flags : EntryFlags} (hvacant : Vacant s)
    (hrecursive : s.recursive = s.cr3) (hwritable : flags.contains .writable = true) :
    Ensures (ContextMemory.newKernel count flags) s fun o s' => ∀ r, o = some r →
      ∃ v, InPlace r.1 v v.pages.start s' ∧ r.1.contextMapped = false := by
  refine .seq new_takes_frames fun o s₁ ⟨⟨frames, hs₁⟩, hnew⟩ => ?_
  cases o with
  | none => exact .pure (by simp)
  | some m =>
    obtain ⟨hpos, hm⟩ := hnew m rfl
    have hvacant₁ : Vacant s₁ := hs₁ ▸ hvacant
    have hrecursive₁ : s₁.recursive = s₁.cr3 := hs₁ ▸ hrecursive
    refine .bind fun r s₂ hrun => ?_
    rw [ContextMemory.mapToKernel, hm] at hrun
    rcases @VallocMapping.new_cases s₁ flags m.frames hvacant₁ hpos with
      ⟨-, herror | ⟨_, -, hnone⟩⟩ | ⟨start, pages, pool, halloc, -, hsome⟩
    · cases (run_bind_error herror).symm.trans hrun
    · cases (run_bind hnone).symm.trans hrun
      exact .seq .any fun _ _ _ => .pure (by simp)
    · cases (run_bind hsome).symm.trans hrun
      refine .pure ?_
      rintro _ ⟨⟩
      have hfree : ∀ k, k < m.frames.count → userPages ≤ start + k ∧ s₁.kernel (start + k) = none :=
        fun k hk => hvacant₁ _ (Allocator.free_of_allocate halloc hk)
      refine ⟨_, ⟨rfl, rfl, ⟨rfl, hpos, (hfree 0 hpos).1, fun k hk => block_inside hk⟩, hwritable,
        rfl, hrecursive₁, fun p hp => ?_, rfl, fun h => Bool.noConfusion h, fun h => Bool.noConfusion h,
        fun _ => rfl⟩, rfl⟩
      obtain ⟨hp, hout⟩ := (Allocator.free_allocate_iff halloc).mp hp
      exact ⟨(hvacant₁ p hp).1, (block_outside hout).trans (hvacant₁ p hp).2⟩

/-- A kernel without contexts. -/
def emptySystem : System :=
  { arenaSystem with user := fun _ _ => none, kernel := fun _ => none, tables := fun _ => none }

/-- One value that is longer than the page of arguments. -/
def longValue : List Encoder := [encodedValues (List.replicate 4097 1)]

/-- The page that `resize` maps for the arguments of a kernel context is still mapped: it
is the one of the mapping. -/
theorem kernel_arguments_cannot_grow : ∃ m address v page s,
    (ContextMemory.newKernel 1 kernelFlags).run emptySystem = .ok (some (m, address), s) ∧
    InPlace m v page s ∧
    (ContextValues.appendAll ⟨some m, 0⟩ longValue).run s = .error (.alreadySet (userPages + 1)) ∧
    ¬ AppendOnly ⟨some m, 0⟩ m.contextAddress longValue s := by
  have heval : finds (ContextMemory.newKernel 1 kernelFlags) emptySystem (fun r s => r.any fun r =>
      throws (ContextValues.appendAll ⟨some r.1, 0⟩ longValue) s (.alreadySet (userPages + 1))) = true := by
    decide +kernel
  obtain ⟨r, s, hnew, htest⟩ := exists_of_finds heval
  obtain ⟨⟨m, address⟩, rfl, hpanics⟩ := (Option.any_eq_true ..).mp htest
  have hrun := run_of_throws hpanics
  have hvacant : Vacant emptySystem := by
    intro page hpage
    have hle : userPages + 1 ≤ page := of_decide_eq_true hpage
    exact ⟨by omega, rfl⟩
  obtain ⟨v, hplace, -⟩ := newKernel_inPlace hvacant rfl (by decide) _ _ hnew _ rfl
  refine ⟨m, address, v, v.pages.start, s, hnew, hplace, hrun, fun happend => ?_⟩
  obtain ⟨v', s', hok, -⟩ := happend longValue.length (Nat.le_refl _)
  rw [List.take_length] at hok
  cases hrun.symm.trans hok

end Faastr.Spaces
