import Faastr.Ringbuf.Unbounded

/-!
What single calls on the ring are told.

`Ring.Writing` is a call of the producer while the consumer does nothing, and
`Ring.TryReading` a call of `try_read` between whose steps the producer may do
anything. Both are cut into the steps of `Ring.produce` and `Ring.consume`.

- With an idle consumer, `try_write` and `write` are granted what one of their two
  comparisons grants (`accepts_iff`). That is what fits, except at the boundary: a
  request for all of the free space is refused (`accepted_iff_fits`).
- `try_read` returns `None` without looking at what its last load has brought
  (`tryRead_misses_nothing_iff`).
-/

namespace Faastr.Ringbuf

open Faastr.Lib

/-! ### A write alone -/

/-- The states of a call of the producer that nobody interrupts. -/
inductive Ring.Writing (r₀ : Ring) (call : ProducerAction) : Ring → Prop where
  | call {r : Ring} (h : r₀.produce call = some r) : Writing r₀ call r
  | check {r r' : Ring} (before : Writing r₀ call r) (h : r.produce .check = some r') :
      Writing r₀ call r'
  | reload {r r' : Ring} (before : Writing r₀ call r) (h : r.produce .reloadHead = some r') :
      Writing r₀ call r'

/-- The call returns with a handle. -/
def Ring.Accepts (r : Ring) (call : ProducerAction) : Prop :=
  ∃ r' n t, r.Writing call r' ∧ r'.producer = .handle n t

/-- One of the two comparisons finds room: with the old copy of the head, or with a new
one. -/
def Ring.FindsRoom (r : Ring) (n : Nat) : Prop :=
  r.full r.tail n = false ∨ Header.full { r with shadowHead := r.head } r.tail n = false

instance (r : Ring) (n : Nat) : Decidable (r.FindsRoom n) := inferInstanceAs (Decidable (_ ∨ _))

section Writing

variable {r r' : Ring} {n : Nat} {call : ProducerAction}

/-- A comparison is made where the producer is at one. -/
theorem Ring.of_produce_check (h : r.produce .check = some r') :
    ∃ c n t, r.producer = .check c n t ∧
      r' = { r with producer := if r.full t n then c.onFull n t else .handle n t } := by
  unfold Ring.produce Ring.produceBy at h
  cases hpc : r.producer with
  | check c n t =>
    rw [hpc] at h
    cases h
    exact ⟨c, n, t, rfl, rfl⟩
  | _ =>
    rw [hpc] at h
    cases h

theorem Ring.of_produce_reloadHead (h : r.produce .reloadHead = some r') :
    ∃ c n t, r.producer = .reload c n t ∧
      r' = { r with shadowHead := r.head, producer := .check c.afterReload n t } := by
  unfold Ring.produce Ring.produceBy at h
  cases hpc : r.producer with
  | reload c n t =>
    rw [hpc] at h
    cases h
    exact ⟨c, n, t, rfl, rfl⟩
  | _ =>
    rw [hpc] at h
    cases h

theorem Ring.produce_check_room {c : WriteCall} {t : Nat} (pc : r.producer = .check c n t)
    (hroom : r.full t n = false) : r.produce .check = some { r with producer := .handle n t } :=
  Ring.actBy_check_room (k := .wrapping) pc hroom

theorem Ring.produce_check_full {c : WriteCall} {t : Nat} {pc' : ProducerPc}
    (pc : r.producer = .check c n t) (hfull : r.full t n = true) (hnext : c.onFull n t = pc') :
    r.produce .check = some { r with producer := pc' } :=
  hnext ▸ Ring.actBy_check_full (k := .wrapping) pc hfull

theorem WriteCall.onFull_of_ne {c : WriteCall} (h : c ≠ .tryWriteAgain) (n t : Nat) :
    c.onFull n t = .reload c n t := by
  cases c with
  | tryWriteAgain => exact absurd rfl h
  | tryWrite => rfl
  | write => rfl

/-- The two calls begin alike: they load the tail. -/
theorem Ring.produce_call (hidle : r.producer = .idle)
    (hcall : call = .tryWrite n ∨ call = .write n) :
    ∃ c, r.produce call = some { r with producer := .check c n r.tail } ∧ c ≠ .tryWriteAgain := by
  unfold Ring.produce Ring.produceBy
  rw [hidle]
  obtain rfl | rfl := hcall
  · exact ⟨.tryWrite, rfl, by decide⟩
  · exact ⟨.write, rfl, by decide⟩

/-- Where a call for `n` bytes stands that began in `r`. -/
structure Ring.WritingAt (r r' : Ring) (n : Nat) : Prop where
  capacity : r'.capacity = r.capacity
  head : r'.head = r.head
  copy : r'.shadowHead = r.shadowHead ∨ r'.shadowHead = r.head
  check : ∀ c m t, r'.producer = .check c m t → m = n ∧ t = r.tail
  reload : ∀ c m t, r'.producer = .reload c m t → m = n ∧ t = r.tail
  handle : ∀ m t, r'.producer = .handle m t → r.FindsRoom n

theorem Ring.WritingAt.findsRoom (h : r.WritingAt r' n) (hroom : r'.full r.tail n = false) :
    r.FindsRoom n := by
  have hfull : r'.full r.tail n = decide (wadd r'.shadowHead r.capacity ≤ wadd r.tail n) := by
    rw [Header.full_eq, h.capacity]
  obtain hcopy | hcopy := h.copy
  · rw [hfull, hcopy] at hroom
    exact .inl hroom
  · rw [hfull, hcopy] at hroom
    exact .inr hroom

theorem Ring.Writing.writingAt (hidle : r.producer = .idle)
    (hcall : call = .tryWrite n ∨ call = .write n) (h : r.Writing call r') : r.WritingAt r' n := by
  induction h with
  | call hfirst =>
    obtain ⟨c, hproduce, -⟩ := Ring.produce_call hidle hcall
    rw [hproduce] at hfirst
    cases hfirst
    refine ⟨rfl, rfl, .inl rfl, ?_, ?_, ?_⟩
    · rintro _ _ _ ⟨⟩
      exact ⟨rfl, rfl⟩
    · rintro _ _ _ ⟨⟩
    · rintro _ _ ⟨⟩
  | @check x y _ hcheck ih =>
    obtain ⟨c, m, t, hpc, rfl⟩ := Ring.of_produce_check hcheck
    obtain ⟨rfl, rfl⟩ := ih.check c m t hpc
    cases hfull : x.full r.tail m with
    | true =>
      refine ⟨ih.capacity, ih.head, ih.copy, ?_, ?_, ?_⟩
      · intro c' m' t' hpc'
        cases c <;> cases hpc'
      · intro c' m' t' hpc'
        cases c <;> cases hpc' <;> exact ⟨rfl, rfl⟩
      · intro m' t' hpc'
        cases c <;> cases hpc'
    | false =>
      refine ⟨ih.capacity, ih.head, ih.copy, ?_, ?_, ?_⟩
      · rintro _ _ _ ⟨⟩
      · rintro _ _ _ ⟨⟩
      · rintro _ _ -
        exact ih.findsRoom hfull
  | @reload x y _ hreload ih =>
    obtain ⟨c, m, t, hpc, rfl⟩ := Ring.of_produce_reloadHead hreload
    obtain ⟨rfl, rfl⟩ := ih.reload c m t hpc
    refine ⟨ih.capacity, ih.head, .inr ih.head, ?_, ?_, ?_⟩
    · rintro _ _ _ ⟨⟩
      exact ⟨rfl, rfl⟩
    · rintro _ _ _ ⟨⟩
    · rintro _ _ ⟨⟩

/-- **With an idle consumer a write is granted what one of its comparisons grants.** -/
theorem Ring.accepts_iff (hidle : r.producer = .idle)
    (hcall : call = .tryWrite n ∨ call = .write n) : r.Accepts call ↔ r.FindsRoom n := by
  constructor
  · rintro ⟨r', m, t, hwriting, hpc⟩
    exact (hwriting.writingAt hidle hcall).handle m t hpc
  · intro hroom
    obtain ⟨c, hproduce, hfirst⟩ := Ring.produce_call hidle hcall
    have hcalled : r.Writing call _ := .call hproduce
    by_cases hfull : r.full r.tail n = false
    · exact ⟨_, n, r.tail, .check hcalled (Ring.produce_check_room rfl hfull), rfl⟩
    · -- The first comparison fails, so the second one is made with a new copy.
      have hagain := hroom.resolve_left hfull
      have hreload : r.Writing call { r with producer := .reload c n r.tail } := by
        refine .check hcalled (Ring.produce_check_full rfl (by simpa using hfull) ?_)
        exact WriteCall.onFull_of_ne hfirst n r.tail
      have hchecked := Ring.Writing.reload hreload (Ring.produce_reloadHead rfl)
      exact ⟨_, n, r.tail, .check hchecked (Ring.produce_check_room rfl hagain), rfl⟩

end Writing

/-! ### What fits -/

/-- `b` is the end of a write, `a` the end of the free space by the old copy of the head,
and `c` the end of the free space. Either `a` and `b` are in the same lap of
`2 ^ 64` and `b` is below `a`, or `c` is in that lap too and is not `b`; or `a` is in
another lap, `c` is not, and `b` goes up to `c` at most. -/
def OffBoundary (a b c : Nat) : Prop :=
  (a / 2 ^ 64 = b / 2 ^ 64 ∧ (b < a ∨ c / 2 ^ 64 = b / 2 ^ 64 ∧ b ≠ c)) ∨
    (a / 2 ^ 64 ≠ b / 2 ^ 64 ∧ c / 2 ^ 64 = b / 2 ^ 64 ∧ b ≤ c)

instance (a b c : Nat) : Decidable (OffBoundary a b c) := inferInstanceAs (Decidable (_ ∨ _))

def Ring.OffBoundary (u : Ring) (n : Nat) : Prop :=
  Ringbuf.OffBoundary (u.shadowHead + u.capacity) (u.tail + n) (u.head + u.capacity)

instance (u : Ring) (n : Nat) : Decidable (u.OffBoundary n) :=
  inferInstanceAs (Decidable (Ringbuf.OffBoundary _ _ _))

section Fits

variable {u : Ring} {n : Nat}

theorem freeSpace_words (h : u.InOrder) : u.words.freeSpace = u.capacity - (u.tail - u.head) := by
  have hcap := h.capacity_le
  have htail := h.tail_lt
  have hhead := h.shadowHead_le
  have hsize : u.words.size = u.tail - u.head := wsub_words h.head_le_tail (by omega)
  rw [Header.freeSpace, hsize]
  exact wsub_eq (show u.tail - u.head ≤ u.capacity by omega) (show u.capacity < 2 ^ 64 by omega)

theorem findsRoom_words (u : Ring) (n : Nat) :
    u.words.FindsRoom n ↔
      (u.tail + n) % 2 ^ 64 < (u.shadowHead + u.capacity) % 2 ^ 64 ∨
        (u.tail + n) % 2 ^ 64 < (u.head + u.capacity) % 2 ^ 64 := by
  simp only [Ring.FindsRoom, Header.full_eq, Ring.words, wadd_words, decide_eq_false_iff_not,
    Nat.not_le]

/-- The words find room for what fits exactly off the boundary. -/
theorem findsRoom_iff_fits (h : u.InOrder) (hn : n < 2 ^ 64) :
    (u.words.FindsRoom n ↔ n ≤ u.words.freeSpace) ↔ u.OffBoundary n := by
  have hcap := h.capacity_le
  have htail := h.tail_lt
  have hhead := h.shadowHead_le
  have hle := h.head_le_tail
  rw [findsRoom_words, freeSpace_words h]
  simp only [Ring.OffBoundary, Ringbuf.OffBoundary]
  have hfits : n ≤ u.capacity - (u.tail - u.head) ↔ u.tail + n ≤ u.head + u.capacity := by omega
  rw [hfits]
  generalize ha : u.shadowHead + u.capacity = a
  generalize hb : u.tail + n = b
  generalize hc : u.head + u.capacity = c
  omega

end Fits

/-- **A write is granted exactly what fits, off the boundary.** In every state of a run
without comparisons across a lap, with nothing going on: `try_write(n)` succeeds
exactly when `n` is at most the free space, and `write(n)` returns on an empty ring
for every `n` up to the capacity. -/
theorem accepted_iff_fits (data : List UInt8) (hpow : ∃ k, k ≤ 62 ∧ data.length = 2 ^ k)
    (u w : Ring) (hrun : Ring.TwinRun data u w) (hidle : w.producer = .idle) (n : Nat)
    (hn : n < 2 ^ 64) :
    ((w.Accepts (.tryWrite n) ↔ n ≤ w.freeSpace) ∧
      (w.head = w.tail → n ≤ w.capacity → w.Accepts (.write n))) ↔ u.OffBoundary n := by
  obtain ⟨horder, rfl⟩ := hrun.inOrder hpow
  rw [Ring.accepts_iff hidle (.inl rfl), Ring.accepts_iff hidle (.inr rfl),
    ← findsRoom_iff_fits horder hn]
  constructor
  · exact fun h => h.1
  · intro h
    refine ⟨h, ?_⟩
    -- On an empty ring all of the capacity is free.
    intro hempty hcap
    have hsize : u.words.size = 0 := by
      rw [Header.size, hempty]
      unfold wsub
      omega
    have hfree : u.words.freeSpace = u.words.capacity := by
      have hle : u.words.capacity ≤ 2 ^ 62 := horder.capacity_le
      rw [Header.freeSpace, hsize]
      exact wsub_eq (Nat.zero_le _) (by omega)
    exact h.mpr (hfree ▸ hcap)

/-- Seven of the eight bytes of a fresh ring are granted. -/
theorem seven_bytes_accepted : (Ring.fresh zeros).Accepts (.tryWrite 7) := by
  have hexact := accepted_iff_fits zeros zeros_pow (Ring.fresh zeros) (Ring.fresh zeros) .refl rfl
    7 (by decide)
  exact (hexact.mpr (by decide)).1.mpr (by decide)

/-- All eight are free, but they are not granted, and a `write` of them never returns. -/
theorem eight_bytes_refused :
    Ring.TwinRun zeros (Ring.fresh zeros) (Ring.fresh zeros) ∧
      (Ring.fresh zeros).freeSpace = 8 ∧ ¬ (Ring.fresh zeros).Accepts (.tryWrite 8) ∧
      ¬ (Ring.fresh zeros).Accepts (.write 8) := by
  have hroom : ¬ (Ring.fresh zeros).FindsRoom 8 := by decide
  refine ⟨.refl, by decide, ?_, ?_⟩
  · rw [Ring.accepts_iff rfl (.inl rfl)]
    exact hroom
  · rw [Ring.accepts_iff rfl (.inr rfl)]
    exact hroom

/-! ### A read among writes -/

/-- The states of a call of `try_read(n, times)` that began in `r₀`, whatever the producer
does meanwhile, with the values of the tail that it has loaded. -/
inductive Ring.TryReading (r₀ : Ring) (n times : Nat) : Ring → List Nat → Prop where
  | call {r : Ring} (h : r₀.consume (.tryRead n times) = some r) : TryReading r₀ n times r []
  | produce {r r' : Ring} {loads : List Nat} (before : TryReading r₀ n times r loads)
      (a : ProducerAction) (h : r.produce a = some r') : TryReading r₀ n times r' loads
  | check {r r' : Ring} {loads : List Nat} (before : TryReading r₀ n times r loads)
      (h : r.consume .check = some r') : TryReading r₀ n times r' loads
  | load {r r' : Ring} {loads : List Nat} (before : TryReading r₀ n times r loads)
      (h : r.consume .reloadTail = some r') : TryReading r₀ n times r' (loads ++ [r.tail])

/-- A value of the tail shows that `n` bytes are there. -/
def Ring.Shows (r₀ : Ring) (n tail : Nat) : Prop := n ≤ wsub tail r₀.head

/-- When `n` bytes are there at the start or at the load number `times`, counted from 0,
an earlier view of the tail shows them: the copy from before the call, or an
earlier load. -/
def Ring.SeenInTime (r₀ : Ring) (n times : Nat) (loads : List Nat) : Prop :=
  (r₀.Shows n r₀.tail ∨ ∃ tail, loads[times]? = some tail ∧ r₀.Shows n tail) →
    ∃ tail ∈ r₀.shadowTail :: loads.take times, r₀.Shows n tail

section Reading

variable {r₀ r r' : Ring} {n times : Nat} {loads : List Nat}

/-- Nothing that the producer does touches the consumer's side. -/
theorem Ring.produce_consumer_side {a : ProducerAction} (h : r.produce a = some r') :
    r'.consumer = r.consumer ∧ r'.shadowTail = r.shadowTail := by
  unfold Ring.produce Ring.produceBy at h
  split at h
  · cases h
    exact ⟨rfl, rfl⟩
  · cases h
    exact ⟨rfl, rfl⟩
  · cases h
    exact ⟨rfl, rfl⟩
  · cases h
    exact ⟨rfl, rfl⟩
  · split at h
    · split at h
      · cases h
        exact ⟨rfl, rfl⟩
      · cases h
    · cases h
      exact ⟨rfl, rfl⟩
  · cases h
    exact ⟨rfl, rfl⟩
  · cases h
    exact ⟨rfl, rfl⟩
  · cases h

theorem Ring.of_consume_check (h : r.consume .check = some r') :
    ∃ c n t, r.consumer = .check c n t ∧
      r' = { r with consumer := if r.short t n then .reload c n t else .handle n t } := by
  unfold Ring.consume Ring.consumeBy at h
  cases hpc : r.consumer with
  | check c n t =>
    rw [hpc] at h
    cases h
    exact ⟨c, n, t, rfl, rfl⟩
  | _ =>
    rw [hpc] at h
    cases h

/-- Where a call stands: what it has loaded, and that every view it has looked at was
short. The copy of the tail is the last view. -/
inductive Ring.ReadingAt (r₀ : Ring) (n times : Nat) (r : Ring) (loads : List Nat) : Prop where
  | check (left : Nat) (before : List Nat) (pc : r.consumer = .check (.tryRead left) n r₀.head)
      (count : loads.length + left = times)
      (views : r₀.shadowTail :: loads = before ++ [r.shadowTail])
      (short : ∀ tail ∈ before, ¬ r₀.Shows n tail)
  | reload (left : Nat) (pc : r.consumer = .reload (.tryRead left) n r₀.head)
      (count : loads.length + left = times)
      (short : ∀ tail ∈ r₀.shadowTail :: loads, ¬ r₀.Shows n tail)
  | some (pc : r.consumer = .handle n r₀.head) (count : loads.length ≤ times)
      (shown : ∃ tail ∈ r₀.shadowTail :: loads, r₀.Shows n tail)
  | none (before : List Nat) (last : Nat) (pc : r.consumer = .idle)
      (count : before.length = times) (views : loads = before ++ [last])
      (short : ∀ tail ∈ r₀.shadowTail :: before, ¬ r₀.Shows n tail)

theorem Ring.TryReading.readingAt (hidle : r₀.consumer = .idle)
    (h : r₀.TryReading n times r loads) : r₀.ReadingAt n times r loads := by
  induction h with
  | call hcall =>
    rw [Ring.consume_tryRead hidle] at hcall
    cases hcall
    exact .check times [] rfl (by simp) rfl (by simp)
  | produce _ a hstep ih =>
    obtain ⟨hpc', hcopy⟩ := Ring.produce_consumer_side hstep
    cases ih with
    | check left before pc count views short =>
      exact .check left before (hpc'.trans pc) count (hcopy ▸ views) short
    | reload left pc count short => exact .reload left (hpc'.trans pc) count short
    | some pc count shown => exact .some (hpc'.trans pc) count shown
    | none before last pc count views short =>
      exact .none before last (hpc'.trans pc) count views short
  | @check x y loads _ hstep ih =>
    obtain ⟨c, m, t, hpc, rfl⟩ := Ring.of_consume_check hstep
    cases ih with
    | check left before pc count views short =>
      rw [hpc] at pc
      cases pc
      -- The comparison looks at the last view.
      have hlast : x.short r₀.head n = true ↔ ¬ r₀.Shows n x.shadowTail := by
        simp [Header.short_eq, Ring.Shows]
      cases hshort : x.short r₀.head n with
      | true =>
        refine .reload left rfl count ?_
        intro tail htail
        rw [views, List.mem_append, List.mem_singleton] at htail
        obtain htail | rfl := htail
        · exact short tail htail
        · exact hlast.mp hshort
      | false =>
        refine .some rfl (by omega) ⟨x.shadowTail, ?_, ?_⟩
        · rw [views]
          exact List.mem_append_right _ List.mem_cons_self
        · by_contra hnot
          rw [hlast.mpr hnot] at hshort
          cases hshort
    | reload left pc count short => rw [hpc] at pc; cases pc
    | some pc count shown => rw [hpc] at pc; cases pc
    | none before last pc count views short => rw [hpc] at pc; cases pc
  | @load x y loads _ hstep ih =>
    cases ih with
    | check left before pc count views short =>
      unfold Ring.consume Ring.consumeBy at hstep
      rw [pc] at hstep
      cases hstep
    | reload left pc count short =>
      rw [Ring.consume_reloadTail pc] at hstep
      cases hstep
      cases left with
      | zero => exact .none loads x.tail rfl count rfl short
      | succ left =>
        refine .check left (r₀.shadowTail :: loads) rfl ?_ rfl short
        rw [List.length_append, List.length_singleton]
        omega
    | some pc count shown =>
      unfold Ring.consume Ring.consumeBy at hstep
      rw [pc] at hstep
      cases hstep
    | none before last pc count views short =>
      unfold Ring.consume Ring.consumeBy at hstep
      rw [pc] at hstep
      cases hstep

end Reading

/-- **`try_read` misses nothing exactly when what it loads last was seen before.** For a
call that has returned, whatever the producer did meanwhile: that `None` means
fewer than `n` bytes at its last load, and that it is not `None` if `n` bytes
were there at the start. -/
theorem tryRead_misses_nothing_iff (r₀ r : Ring) (n times : Nat) (loads : List Nat)
    (hidle : r₀.consumer = .idle) (hcall : r₀.TryReading n times r loads)
    (hdone : r.consumer = .idle ∨ ∃ m h, r.consumer = .handle m h) :
    ((r.consumer = .idle → ∀ tail, loads.getLast? = some tail → wsub tail r₀.head < n) ∧
      (n ≤ wsub r₀.tail r₀.head → r.consumer ≠ .idle)) ↔ r₀.SeenInTime n times loads := by
  cases hcall.readingAt hidle with
  | check left before pc count views short =>
    rw [pc] at hdone
    simp at hdone
  | reload left pc count short =>
    rw [pc] at hdone
    simp at hdone
  | some pc count shown =>
    -- A view showed the bytes, and all of them come before the load number `times`.
    have hseen : r₀.SeenInTime n times loads := by
      intro _
      rwa [List.take_of_length_le count]
    simp [pc, hseen]
  | none before last pc count views short =>
    subst views
    have htake : (before ++ [last]).take times = before := by
      rw [← count, List.take_left]
    have hget : (before ++ [last])[times]? = some last := by
      rw [← count, List.getElem?_concat_length]
    have hlast : (before ++ [last]).getLast? = some last := List.getLast?_concat
    constructor
    · rintro ⟨hbytes, hstart⟩ (hshows | ⟨tail, htail, hshows⟩)
      · exact absurd pc (hstart hshows)
      · rw [hget] at htail
        cases htail
        exact absurd (hbytes pc last hlast) (Nat.not_lt.mpr hshows)
    · intro hseen
      -- No view that was looked at showed the bytes, so neither do the start and the last load.
      have hunseen : ¬ (r₀.Shows n r₀.tail ∨
          ∃ tail, (before ++ [last])[times]? = some tail ∧ r₀.Shows n tail) := by
        intro hview
        obtain ⟨tail, htail, hshows⟩ := hseen hview
        rw [htake] at htail
        exact short tail htail hshows
      refine ⟨?_, ?_⟩
      · intro _ tail htail
        rw [hlast] at htail
        cases htail
        exact Nat.lt_of_not_le fun hshows => hunseen (.inr ⟨last, hget, hshows⟩)
      · intro hshows
        exact absurd (.inl hshows) hunseen

/-- Three bytes are in the ring, and the consumer does not know it yet. -/
def threeBytes : Ring := zeroRing 0 0 0 3 .idle .idle

/-- By its copy of the tail a call finds nothing. -/
theorem threeBytes_short (times : Nat) :
    threeBytes.TryReading 2 times (zeroRing 0 0 0 3 .idle (.reload (.tryRead times) 2 0)) [] := by
  have hcalled : threeBytes.TryReading 2 times
      (zeroRing 0 0 0 3 .idle (.check (.tryRead times) 2 0)) [] := .call rfl
  have hshort : (zeroRing 0 0 0 3 .idle (.check (.tryRead times) 2 0)).short 0 2 = true :=
    decide_eq_true (show wsub 0 0 < 2 by decide)
  refine .check hcalled ?_
  rw [Ring.consume_check rfl, if_pos hshort]
  rfl

/-- A call that looks once comes back with nothing, one that looks twice with a handle. -/
theorem threeBytes_calls :
    threeBytes.TryReading 2 0 (zeroRing 0 0 3 3 .idle .idle) [3] ∧
      threeBytes.TryReading 2 1 (zeroRing 0 0 3 3 .idle (.handle 2 0)) [3] := by
  have hloaded : threeBytes.TryReading 2 1
      (zeroRing 0 0 3 3 .idle (.check (.tryRead 0) 2 0)) [3] := .load (threeBytes_short 1) rfl
  refine ⟨.load (threeBytes_short 0) rfl, .check hloaded ?_⟩
  rw [Ring.consume_check rfl, if_neg (by decide)]
  rfl

/-- The call that looks twice finds two of the bytes. -/
theorem second_look_finds : threeBytes.SeenInTime 2 1 [3] := by
  refine (tryRead_misses_nothing_iff threeBytes _ 2 1 [3] rfl threeBytes_calls.2
    (.inr ⟨2, 0, rfl⟩)).mp ⟨?_, ?_⟩
  · rintro ⟨⟩
  · rintro - ⟨⟩

/-- The call that looks once returns `None`, although its only load showed three bytes. -/
theorem only_load_ignored :
    (Ring.fresh zeros).Reaches threeBytes ∧
      threeBytes.TryReading 2 0 (zeroRing 0 0 3 3 .idle .idle) [3] ∧ 2 ≤ wsub 3 threeBytes.head :=
  ⟨Ring.reaches_of_act [.inl (.write 3), .inl .check, .inl .publishTail] (by decide) (by decide),
    threeBytes_calls.1, by decide⟩

end Faastr.Ringbuf
