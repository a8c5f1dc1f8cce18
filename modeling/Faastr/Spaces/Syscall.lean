import Faastr.Ivshrpc.Dispatch
import Faastr.Paging.Validate
import Faastr.Sos.Lazy
import Faastr.Spaces.Arena

/-!
System calls (`kernel/src/syscall/mod.rs`): what a call leaves in the frames of the caller's
arguments, from the address on that it returns.

The call decodes its arguments from the memory of the caller, does what it is asked for,
and appends the reply to the arguments of the caller. What is done to find a function and
to run it is a parameter, which may change the system in any way.

* `called`: what a call comes to, before it is encoded.
* `appendEncode_bytes`: what was appended is between the address that was returned and the
  new offset.
* `syscall_answers_iff`: a call that returns has put a message there, with the result
  values or the error, exactly when it is not a cast that succeeds. That one appends no
  bytes at all.
-/

namespace Faastr.Spaces

open Faastr.Lib Faastr.Memory Faastr.Paging Faastr.Sos

/-! ### Arguments in memory -/

/-- `translate_page_flags`. `map_to` enters its pages as present. -/
def translatePageFlags (page : Nat) : Kernel (Option EntryFlags) := do
  let s ← get
  return (s.lookup s.recursive page).map fun e => e.2.union .present

/-- `validate_slice`, with the bytes of the slice. -/
def validateSlice (ptr len : Nat) : Kernel (Except String (List UInt8)) := do
  match ← validateWith translatePageFlags readFlags 1 ptr len with
  | .error e => return .error e
  | .ok len =>
      let s ← get
      return .ok ((List.range len).map fun i => (s.byteAt (ptr + i)).getD 0)

/-! ### Calls -/

namespace Number

@[match_pattern] def sysWrite : Nat := 2

@[match_pattern] def sysFuse : Nat := 3

@[match_pattern] def sysCast : Nat := 4

@[match_pattern] def sysReturn : Nat := 6

end Number

/-- Why a function is not called: the errors of `initfs_module`, `fuse_name` and
`cast_name`. -/
inductive CallError where
  | noModule
  | notElf
  | highAddress
  | noManifest
  | badManifest
  | noFunction
  | noKernelStack
  | noKernelArgs
  | tooManyContexts
  | idOutOfBounds
deriving DecidableEq, Repr

def CallError.text : CallError → String
  | noModule => "No such module in initfs"
  | notElf => "Failed to parse elf"
  | highAddress => "Binary requested to load code above permitted vaddr"
  | noManifest => "Manifest section not found"
  | badManifest => "Failed to decode manifest"
  | noFunction => "Function not found"
  | noKernelStack => "Failed to allocate kernel stack"
  | noKernelArgs => "Failed to allocate kernel args"
  | tooManyContexts => "Reached maximum number of contexts"
  | idOutOfBounds => "Failed to insert new context. ID is out of bounds."

/-- Finding a function and running it. -/
structure Services where
  /-- `initfs_module` and `fuse_name`, with the message that the callee returned. -/
  fuseName : Function → DecodeIter → Kernel (Except CallError (List UInt8))
  /-- `initfs_module` and `cast_name`. -/
  castName : Function → DecodeIter → Kernel (Except CallError Unit)

/-- The `EncodedValues` of a call that succeeded. -/
inductive Reply where
  /-- The message of a callee. -/
  | message (bytes : List UInt8)
  /-- `sos![..].into()`. -/
  | values (vs : List Value)
  /-- `EncodedValues::from(Vec::new())`. -/
  | nothing

/-- The bytes of the `EncodedValues`. -/
def Reply.encode : Reply → Checked (List UInt8)
  | message bytes => return bytes
  | values vs => do
      let (vec, _) ← encodeSos (List.replicate (encodedLen vs) 0) vs
      return vec
  | nothing => return []

/-- What the codec computes in the kernel. -/
def codec {α : Type} (x : Checked α) : Kernel α :=
  match x with
  | .ok a => return a
  | .error fault => throw (.encode fault)

/-- `sys_fuse`. -/
def sysFuse (services : Services) (args : List UInt8) : Kernel (Except String Reply) := do
  match ← codec (Ivshrpc.requested "Could not decode SOS" args) with
  | .error e => return .error e
  | .ok (function, iter) =>
      return ((← services.fuseName function iter).mapError CallError.text).map .message

/-- `sys_cast`, and the reply of a cast. -/
def sysCast (services : Services) (args : List UInt8) : Kernel (Except String Reply) := do
  match ← codec (Ivshrpc.requested "Could not decode SOS" args) with
  | .error e => return .error e
  | .ok (function, iter) =>
      return ((← services.castName function iter).mapError CallError.text).map fun _ => .nothing

/-- `TryInto<&str>`. -/
def tryIntoStr : Value → Except String String
  | .error i => .ok i
  | .string i => .ok i
  | _ => .error "Incorrect type, wanted: &'a str"

/-- `sos![Value::UInt64(string.len() as u64)]`. -/
def written (string : String) : Reply := .values [.uint64 (UInt64.ofNat (utf8 string).length)]

/-- A write: the text is printed, and its length is the reply. -/
def sysWrite (args : List UInt8) : Checked (Except String Reply) := do
  match ← decodeSos args true with
  | none => return .error "Could not decode SOS"
  | some iter =>
      match ← iter.next with
      | (none, _) => return .error "First argument to write must be String"
      | (some val, _) => return (tryIntoStr val).map written

/-- The arms of `inner`; nothing comes back from a `sys_return`. -/
def performed (services : Services) (a : Nat) (args : List UInt8) :
    Kernel (Option (Except String Reply)) :=
  match a with
  | Number.sysFuse => some <$> sysFuse services args
  | Number.sysCast => some <$> sysCast services args
  | Number.sysReturn => return none
  | Number.sysWrite => some <$> codec (sysWrite args)
  | _ => return some (.error "Invalid system call")

/-- `inner`: the reply of a call that succeeds is appended to the arguments. -/
def inner (services : Services) (a : Nat) (slice : List UInt8) (args : ContextValues) :
    Kernel (Option (Except String (Nat × ContextValues))) := do
  match ← performed services a slice with
  | none => return none
  | some (.error e) => return some (.error e)
  | some (.ok reply) =>
      let ret ← codec reply.encode
      return some (.ok (← args.appendEncode (encodedValues ret).toSos))

/-- `ReferencedValues`, without undecoded iterators. -/
def referencedValues (vs : List Value) (h : AllEncodable vs) : Encoder where
  encodedLen := encodedLen vs
  encode buf := encodeSos buf vs
  exact _ hbuf := ⟨_, _, encodeSos_exact h hbuf⟩
  bytes := message vs
  length := message_length vs
  writes _ hbuf := ⟨_, encodeSos_exact h hbuf⟩

/-- `JustError`. -/
def justError (error : String) : Encoder :=
  referencedValues [.error error] (borrowAll_encodable [.error error])

/-- `syscall`, with the arguments of the running context. -/
def syscall (services : Services) (a b c : Nat) (args : ContextValues) :
    Kernel (Option (Nat × ContextValues)) := do
  let result ← match ← validateSlice b c with
    | .error e => pure (some (.error e))
    | .ok slice => inner services a slice args
  match result with
  | none => return none
  | some (.ok r) => return some r
  | some (.error e) => return some (← args.appendEncode (justError e).toSos)

/-! ### What was appended -/

/-- The mapping of the memory leads to its frames. -/
def ContextValues.Backed (v : ContextValues) : Prop :=
  ∀ m mapping, v.memory = some m → m.vallocMapping = some mapping → mapping.frames = m.frames

/-- The bytes of the arguments from an address to the offset. -/
def ContextValues.bytesFrom (v : ContextValues) (address : Nat) (s : System) : List UInt8 :=
  match v.memory with
  | some m => (List.range (m.contextAddress + v.offset - address)).map fun i =>
      s.memory (m.frames.start * pageSize + (address - m.contextAddress) + i)
  | none => []

section Append

variable {v : ContextValues} {m : ContextMemory} {s : System}

theorem grow_backed {need : Nat} (hm : v.memory = some m) (hv : v.Backed) :
    Ensures (v.grow m need) s fun m' _ =>
      ∀ mapping, m'.vallocMapping = some mapping → mapping.frames = m'.frames := by
  rw [ContextValues.grow]
  split
  · refine .seq ContextMemory.resize_shape fun o s₁ hshape => ensures_orPanic fun m' hm' => ?_
    exact (hshape m' hm').2
  · exact .pure fun mapping => hv m mapping hm

/-- The bytes of the encoder are the ones behind the address that is returned. -/
theorem appendEncode_bytes {e : Encoder} (hv : v.Backed) :
    Ensures (v.appendEncode e.toSos) s fun r s' => r.2.bytesFrom r.1 s' = e.bytes := by
  refine .bind (ensures_orPanic fun m hm => ?_)
  refine .seq (grow_backed hm hv) fun m' s₁ hframes => ?_
  refine .seq ContextMemory.asSliceMut_spec fun mapping s₂ ⟨_, hmapping⟩ => ?_
  refine .bind fun slice s₃ hread => ?_
  obtain ⟨-, hlo, hhi⟩ := VallocMapping.read_spec _ _ hread
  rw [VallocMapping.read_run hlo hhi] at hread
  cases hread
  obtain ⟨n, hwrites⟩ := e.writes ((List.range (v.offset + e.encodedLen - v.offset)).map fun i =>
    s₂.memory (mapping.frames.start * pageSize + v.offset + i)) (by simp)
  rw [hwrites]
  refine .bind (.of_modify (.pure ?_))
  have hlength : m'.contextAddress + (v.offset + e.encodedLen) - (m'.contextAddress + v.offset) =
      e.bytes.length := by
    rw [e.length]
    omega
  simp only [ContextValues.bytesFrom, hlength, Nat.add_sub_cancel_left]
  refine List.ext_getElem (by simp) fun i hi hi' => ?_
  rw [List.getElem_map, List.getElem_range, VallocMapping.filled, hframes mapping hmapping]
  rw [if_pos (by rw [← e.length]; omega), Nat.add_sub_cancel_left, List.getD_eq_getElem _ _ hi']

end Append

/-! ### What a call comes to -/

/-- The result of a call, before it is encoded. -/
def called (services : Services) (a b c : Nat) : Kernel (Option (Except String Reply)) := do
  match ← validateSlice b c with
  | .error e => return some (.error e)
  | .ok slice => performed services a slice

section Calls

variable {services : Services} {a b c : Nat} {args args' : ContextValues} {s s' : System}
  {address : Nat}

/-- What a call appends to the arguments: its reply, or the error. -/
theorem syscall_appends (h : (syscall services a b c args).run s = .ok (some (address, args'), s')) :
    ∃ result s₁, (called services a b c).run s = .ok (some result, s₁) ∧
      match result with
      | .ok reply => ∃ ret, reply.encode = .ok ret ∧
          (args.appendEncode (encodedValues ret).toSos).run s₁ = .ok ((address, args'), s')
      | .error e => (args.appendEncode (justError e).toSos).run s₁ = .ok ((address, args'), s') := by
  obtain ⟨slice, s₀, hslice, h⟩ := run_bind_eq_ok h
  cases slice with
  | error e =>
    obtain ⟨_, _, hpure, h⟩ := run_bind_eq_ok h
    cases hpure
    obtain ⟨_, _, happend, h⟩ := run_bind_eq_ok h
    cases h
    exact ⟨.error e, s₀, run_bind hslice, happend⟩
  | ok slice =>
    obtain ⟨o, s₂, hinner, h⟩ := run_bind_eq_ok h
    obtain ⟨result, s₁, hperformed, hinner⟩ := run_bind_eq_ok hinner
    have hcalled : (called services a b c).run s = .ok (result, s₁) :=
      (run_bind hslice).trans hperformed
    match result with
    | none =>
      cases hinner
      cases h
    | some (.error e) =>
      cases hinner
      obtain ⟨_, _, happend, h⟩ := run_bind_eq_ok h
      cases h
      exact ⟨.error e, _, hcalled, happend⟩
    | some (.ok reply) =>
      obtain ⟨ret, s₃, hret, hinner⟩ := run_bind_eq_ok hinner
      obtain ⟨_, _, happend, hinner⟩ := run_bind_eq_ok hinner
      cases hinner
      cases h
      cases hencode : reply.encode with
      | error fault =>
        rw [hencode] at hret
        cases hret
      | ok bytes =>
        rw [hencode] at hret
        cases hret
        exact ⟨.ok reply, _, hcalled, _, hencode, happend⟩

/-- What may come of the arms: an error with a short text, or a reply of their own. -/
def Expected (a : Nat) : Except String Reply → Prop
  | .error e => encodedLen [.error e] < 2 ^ 32
  | .ok (.message _) => a = Number.sysFuse
  | .ok (.values vs) => a = Number.sysWrite ∧ ∃ string, written string = .values vs
  | .ok .nothing => a = Number.sysCast

theorem CallError.text_short (e : CallError) : encodedLen [.error e.text] < 2 ^ 32 := by
  cases e <;> decide

theorem requested_short {undecodable e : String} {args : List UInt8}
    (hshort : encodedLen [.error undecodable] < 2 ^ 32)
    (h : Ivshrpc.requested undecodable args = .ok (.error e)) : encodedLen [.error e] < 2 ^ 32 := by
  obtain ⟨iter, -, h⟩ := bind_eq_ok.mp h
  cases iter with
  | none =>
    cases h
    exact hshort
  | some iter =>
    obtain ⟨⟨val, rest⟩, -, h⟩ := bind_eq_ok.mp h
    cases val with
    | none =>
      cases h
      decide
    | some val =>
      have hmap : (Ivshrpc.tryIntoFunction val).map (·, rest) = .error e := Except.ok.inj h
      unfold Ivshrpc.tryIntoFunction at hmap
      split at hmap
      · cases hmap
      · cases hmap
        decide

theorem ensures_codec {α : Type} {x : Checked α} {Q : α → System → Prop}
    (h : ∀ r, x = .ok r → Q r s) : Ensures (codec x) s Q := by
  cases x with
  | ok r => exact .pure (h r rfl)
  | error fault => exact .throw _

/-- A request for a function, as `sys_fuse` and `sys_cast` serve it. -/
theorem expected_request {β : Type} {args : List UInt8}
    {run : Function → DecodeIter → Kernel (Except CallError β)} {reply : β → Reply}
    (hreply : ∀ r, Expected a (.ok (reply r))) :
    Ensures (do
      match ← codec (Ivshrpc.requested "Could not decode SOS" args) with
      | .error e => return .error e
      | .ok (function, iter) =>
          return ((← run function iter).mapError CallError.text).map reply) s
      fun result _ => Expected a result := by
  refine .bind (ensures_codec fun r hr => ?_)
  cases r with
  | error e => exact .pure (requested_short (by decide) hr)
  | ok r =>
    refine .bind fun result s₁ _ => .pure ?_
    cases result with
    | error e => exact e.text_short
    | ok r => exact hreply r

theorem expected_sysWrite {args : List UInt8} {result : Except String Reply}
    (h : sysWrite args = .ok result) : Expected Number.sysWrite result := by
  obtain ⟨iter, -, h⟩ := bind_eq_ok.mp h
  cases iter with
  | none =>
    cases h
    show encodedLen _ < _
    decide
  | some iter =>
    obtain ⟨⟨val, rest⟩, -, h⟩ := bind_eq_ok.mp h
    cases val with
    | none =>
      cases h
      show encodedLen _ < _
      decide
    | some val =>
      cases h
      unfold tryIntoStr
      split
      · exact ⟨rfl, _, rfl⟩
      · exact ⟨rfl, _, rfl⟩
      · show encodedLen _ < _
        decide

theorem expected_performed {args : List UInt8} :
    Ensures (performed services a args) s fun o _ => ∀ result, o = some result → Expected a result := by
  have hsome : ∀ {x : Kernel (Except String Reply)}, Ensures x s (fun result _ => Expected a result) →
      Ensures (some <$> x) s fun o _ => ∀ result, o = some result → Expected a result := by
    intro x hx
    refine .map (hx.mono ?_)
    rintro result _ hresult _ ⟨⟩
    exact hresult
  unfold performed
  split
  · exact hsome (expected_request fun _ => rfl)
  · exact hsome (expected_request fun _ => rfl)
  · exact .pure (by simp)
  · exact hsome (ensures_codec fun _ => expected_sysWrite)
  · refine .pure ?_
    rintro _ ⟨⟩
    show encodedLen _ < _
    decide

/-- Nothing changes, and there is one error only. -/
def Checks {α : Type} (x : Kernel (Except String α)) (s : System) : Prop :=
  Ensures x s fun r s' => s' = s ∧ ∀ e, r = .error e → e = invalidMemoryAddress

theorem Checks.ok {α : Type} (a : α) : Checks (return .ok a) s := .pure ⟨rfl, by simp⟩

theorem Checks.error {α : Type} : Checks (α := α) (return .error invalidMemoryAddress) s :=
  .pure ⟨rfl, fun _ he => (Except.error.inj he).symm⟩

theorem Checks.bind {α β : Type} {x : Kernel (Except String α)}
    {f : Except String α → Kernel (Except String β)} (h : Checks x s)
    (herror : f (.error invalidMemoryAddress) = return .error invalidMemoryAddress)
    (hf : ∀ a, Checks (f (.ok a)) s) : Checks (x >>= f) s := by
  refine .seq h fun r s₁ ⟨hs₁, hr⟩ => ?_
  subst hs₁
  cases r with
  | ok a => exact hf a
  | error e =>
    rw [hr e rfl, herror]
    exact Checks.error

theorem checks_validatePages {flags : EntryFlags} (pages : List Nat) :
    Checks (validatePages translatePageFlags flags pages) s := by
  induction pages with
  | nil => exact .ok ()
  | cons page pages ih =>
    refine Ensures.bind (.bind (.get (.pure ?_)))
    split
    · split
      · exact ih
      · exact Checks.error
    · exact Checks.error

theorem checks_validate {ptr size : Nat} {flags : EntryFlags} :
    Checks (validate translatePageFlags ptr size flags) s := by
  rw [validate]
  split
  · exact .error
  · dsimp only
    split
    · exact .error
    · exact checks_validatePages _

theorem checks_validateSlice {ptr len : Nat} : Checks (validateSlice ptr len) s := by
  refine .bind (x := validateWith translatePageFlags readFlags 1 ptr len) ?_ rfl fun len => ?_
  · rw [validateWith]
    split
    · exact .ok 0
    · exact checks_validate.bind rfl fun _ => .ok len
  · exact Ensures.bind (.get (Checks.ok _))

theorem expected_called :
    Ensures (called services a b c) s fun o _ => ∀ result, o = some result → Expected a result := by
  refine .seq checks_validateSlice fun slice s₁ ⟨_, hslice⟩ => ?_
  cases slice with
  | ok slice => exact expected_performed
  | error e =>
    refine .pure ?_
    rintro _ ⟨⟩
    rw [hslice e rfl]
    show encodedLen _ < _
    decide

/-! ### Casts -/

/-- The arguments are a message that starts with a function, and the function can be cast. -/
def CastSucceeds (services : Services) (b c : Nat) (s : System) : Prop :=
  ∃ slice function iter s₁, (validateSlice b c).run s = .ok (.ok slice, s) ∧
    Ivshrpc.requested "Could not decode SOS" slice = .ok (.ok (function, iter)) ∧
    (services.castName function iter).run s = .ok (.ok (), s₁)

theorem called_of_castSucceeds (h : CastSucceeds services b c s) :
    ∃ s₁, (called services Number.sysCast b c).run s = .ok (some (.ok .nothing), s₁) := by
  obtain ⟨slice, function, iter, s₁, hslice, hrequest, hcast⟩ := h
  have hcodec : (codec (Ivshrpc.requested "Could not decode SOS" slice)).run s =
      .ok (.ok (function, iter), s) := by
    rw [hrequest]
    rfl
  have hrun : (sysCast services slice).run s = .ok (.ok .nothing, s₁) :=
    (run_bind hcodec).trans (run_bind hcast)
  refine ⟨s₁, (run_bind hslice).trans ?_⟩
  show (some <$> sysCast services slice).run s = _
  rw [StateT.run_map, hrun]
  rfl

theorem castSucceeds_of_called {reply : Reply} {s₁ : System}
    (h : (called services Number.sysCast b c).run s = .ok (some (.ok reply), s₁)) :
    CastSucceeds services b c s := by
  obtain ⟨slice, s₀, hslice, h⟩ := run_bind_eq_ok h
  obtain rfl := (checks_validateSlice _ _ hslice).1
  cases slice with
  | error e => cases h
  | ok slice =>
    have hcast : Ensures (some <$> sysCast services slice) s₀ fun o _ => ∀ reply,
        o = some (.ok reply) → CastSucceeds services b c s₀ := by
      refine .map (.bind (ensures_codec fun r hr => ?_))
      cases r with
      | error e => exact .pure (by simp)
      | ok r =>
        refine .bind fun result s₂ hresult => .pure fun reply hreply => ?_
        cases result with
        | error e => cases hreply
        | ok => exact ⟨slice, r.1, r.2, s₂, hslice, hr, hresult⟩
    exact hcast _ _ h reply rfl

end Calls

/-! ### Replies in memory -/

/-- What the reply says. -/
def Reply.Yields : Reply → DecodeIter → Prop
  | message bytes, it => decodeSos bytes it.lazy = .ok (some it)
  | values vs, it => collect it = .ok vs
  | nothing, it => collect it = .ok []

/-- The bytes are a message with the result values of the call, or with its error. -/
def Answers (result : Except String Reply) (bytes : List UInt8) : Prop :=
  ∀ lazy, ∃ it, decodeSos bytes lazy = .ok (some it) ∧
    match result with
    | .ok reply => reply.Yields it
    | .error e => collect it = .ok [.error e]

/-- A value that is not a list is read back lazily as well. -/
theorem decodeSos_single {v : OwnedValue} (hlen : encodedLen [v.borrow] < 2 ^ 32)
    (hread : v.readBack = some v.borrow) (hflat : ∀ vs, v.borrow ≠ .embeddedVec vs) (lazy : Bool) :
    ∃ it, decodeSos (message [v.borrow]) lazy = .ok (some it) ∧ collect it = .ok [v.borrow] := by
  have hdecode := @decodeSos_owned [v] hlen (List.cons_ne_nil _ _)
  have heager : collect ⟨1, wires (borrowAll [v]), false⟩ = .ok [v.borrow] := by
    refine (collect_wires [v] hlen).trans ?_
    rw [readBackAll, hread]
    rfl
  refine ⟨_, hdecode lazy, ?_⟩
  cases lazy with
  | false => exact heager
  | true =>
    obtain ⟨vs, ws, hvs, hws, hall⟩ :=
      agree_of_length _ ⟨1, wires (borrowAll [v]), true⟩ (Nat.lt_succ_self _) rfl
    cases heager.symm.trans hws
    obtain ⟨w, _, hw, hnil, rfl⟩ := List.forall₂_cons_right_iff.mp hall
    cases hnil
    rw [hw.eq_of_flat hflat] at hvs
    exact hvs

theorem answers_error {e : String} (hshort : encodedLen [.error e] < 2 ^ 32) :
    Answers (.error e) (message [.error e]) :=
  decodeSos_single (v := .error e) hshort rfl nofun

theorem answers_written (string : String) :
    Answers (.ok (written string)) (message [.uint64 (UInt64.ofNat (utf8 string).length)]) :=
  decodeSos_single (v := .uint64 _) (show 17 < 2 ^ 32 by decide) rfl nofun

theorem encode_written (string : String) : (written string).encode =
    .ok (message [.uint64 (UInt64.ofNat (utf8 string).length)]) := by
  have hencodable : AllEncodable [.uint64 (UInt64.ofNat (utf8 string).length)] :=
    borrowAll_encodable [.uint64 (UInt64.ofNat (utf8 string).length)]
  rw [written, Reply.encode, encodeSos_exact hencodable List.length_replicate]
  rfl

/-- The message of a callee is accepted lazily and eagerly. -/
theorem answers_message {bytes : List UInt8} {it : DecodeIter}
    (h : decodeSos bytes true = .ok (some it)) : Answers (.ok (.message bytes)) bytes := by
  intro lazy
  cases lazy with
  | true =>
    refine ⟨it, h, ?_⟩
    show decodeSos bytes it.lazy = .ok (some it)
    rw [decodeSos_lazy h, h]
  | false =>
    have heager : decodeSos bytes false = .ok (some it.eager) := by
      rw [decodeSos_eager, h]
      rfl
    exact ⟨it.eager, heager, heager⟩

theorem not_answers_nothing : ¬ Answers (.ok .nothing) [] := by
  intro h
  obtain ⟨it, hit, -⟩ := h true
  cases hit

/-- **A system call answers with a message exactly when it is not a cast that succeeds.** The
message is in the arguments of the caller, between the address that is returned and their offset.
A callee that was fused is taken to have returned a message. -/
theorem syscall_answers_iff {services : Services} {a b c address : Nat} {args args' : ContextValues}
    {s s' : System} (hargs : args.Backed)
    (hvalid : ∀ bytes s₁, (called services a b c).run s = .ok (some (.ok (.message bytes)), s₁) →
      ∃ it, decodeSos bytes true = .ok (some it))
    (hrun : (syscall services a b c args).run s = .ok (some (address, args'), s')) :
    ∃ result s₁, (called services a b c).run s = .ok (some result, s₁) ∧
      (Answers result (args'.bytesFrom address s') ↔
        ¬ (a = Number.sysCast ∧ CastSucceeds services b c s)) := by
  obtain ⟨result, s₁, hcalled, happend⟩ := syscall_appends hrun
  have hexpected := expected_called _ _ hcalled result rfl
  refine ⟨result, s₁, hcalled, ?_⟩
  match result with
  | .error e =>
    have hbytes := appendEncode_bytes hargs _ _ happend
    rw [hbytes]
    refine ⟨fun _ h => ?_, fun _ => answers_error hexpected⟩
    obtain ⟨rfl, hcast⟩ := h
    obtain ⟨s₂, hnothing⟩ := called_of_castSucceeds hcast
    cases hcalled.symm.trans hnothing
  | .ok (.message bytes) =>
    obtain ⟨ret, hencode, happend⟩ := happend
    cases hencode
    have hbytes := appendEncode_bytes hargs _ _ happend
    obtain ⟨it, hit⟩ := hvalid bytes s₁ hcalled
    rw [hbytes]
    refine ⟨fun _ h => ?_, fun _ => answers_message hit⟩
    cases hexpected.symm.trans h.1
  | .ok (.values vs) =>
    obtain ⟨ret, hencode, happend⟩ := happend
    obtain ⟨ha, string, hstring⟩ := hexpected
    rw [← hstring, encode_written] at hencode
    cases hencode
    have hbytes := appendEncode_bytes hargs _ _ happend
    rw [hbytes, ← hstring]
    refine ⟨fun _ h => ?_, fun _ => answers_written string⟩
    cases ha.symm.trans h.1
  | .ok .nothing =>
    obtain ⟨ret, hencode, happend⟩ := happend
    cases hencode
    have hbytes := appendEncode_bytes hargs _ _ happend
    obtain rfl : a = Number.sysCast := hexpected
    rw [hbytes]
    exact ⟨fun h => absurd h not_answers_nothing,
      fun h => absurd ⟨rfl, castSucceeds_of_called hcalled⟩ h⟩

/-! ### A write and a cast -/

/-- A context with a message at the front of its arguments. -/
def callerSystem (vs : List Value) : System :=
  { arenaSystem with memory := fun a => (message vs).getD (a - 7 * pageSize) 0 }

def callerArgs (vs : List Value) : ContextValues := ⟨some arenaMemory, encodedLen vs⟩

theorem callerArgs_backed (vs : List Value) : (callerArgs vs).Backed := by
  rintro _ _ ⟨⟩ ⟨⟩
  rfl

/-- Every function can be called, and a callee returns its arguments. -/
def echoServices : Services where
  fuseName _ iter := return .ok (message [.opaqueBytes iter.buff])
  castName _ _ := return .ok ()

/-- Writing a text of two bytes. -/
theorem write_answers : ∃ args' s' result s₁,
    (syscall echoServices Number.sysWrite userArgOffset 16 (callerArgs [.string "hi"])).run
      (callerSystem [.string "hi"]) = .ok (some (userArgOffset + 16, args'), s') ∧
    (called echoServices Number.sysWrite userArgOffset 16).run (callerSystem [.string "hi"]) =
      .ok (some result, s₁) ∧ Answers result (args'.bytesFrom (userArgOffset + 16) s') := by
  have heval : finds (syscall echoServices Number.sysWrite userArgOffset 16
      (callerArgs [.string "hi"])) (callerSystem [.string "hi"]) (fun r _ =>
        r.any (·.1 = userArgOffset + 16)) = true := by
    decide +kernel
  obtain ⟨r, s', hrun, htest⟩ := exists_of_finds heval
  obtain ⟨⟨_, args'⟩, rfl, haddress⟩ := (Option.any_eq_true ..).mp htest
  obtain rfl := of_decide_eq_true haddress
  have hvalid : ∀ bytes s₁, (called echoServices Number.sysWrite userArgOffset 16).run
      (callerSystem [.string "hi"]) = .ok (some (.ok (.message bytes)), s₁) →
      ∃ it, decodeSos bytes true = .ok (some it) := by
    intro bytes s₁ hcalled
    -- Only a fuse comes to the message of a callee.
    cases expected_called _ _ hcalled _ rfl
  obtain ⟨result, s₁, hcalled, hiff⟩ := syscall_answers_iff (callerArgs_backed _) hvalid hrun
  exact ⟨args', s', result, s₁, hrun, hcalled, hiff.mpr fun h => by cases h.1⟩

/-- A cast that succeeds: the address is the offset, and nothing is there. -/
theorem cast_answers_nothing : ∃ args' s' s₁,
    (syscall echoServices Number.sysCast userArgOffset 17 (callerArgs [.function ⟨"m", "f"⟩])).run
      (callerSystem [.function ⟨"m", "f"⟩]) = .ok (some (userArgOffset + 17, args'), s') ∧
    (called echoServices Number.sysCast userArgOffset 17).run (callerSystem [.function ⟨"m", "f"⟩]) =
      .ok (some (.ok .nothing), s₁) ∧
    args'.bytesFrom (userArgOffset + 17) s' = [] ∧
    ¬ Answers (.ok .nothing) (args'.bytesFrom (userArgOffset + 17) s') := by
  have heval : finds (syscall echoServices Number.sysCast userArgOffset 17
      (callerArgs [.function ⟨"m", "f"⟩])) (callerSystem [.function ⟨"m", "f"⟩]) (fun r _ =>
        r.any (·.1 = userArgOffset + 17)) = true := by
    decide +kernel
  have hcasts : finds (called echoServices Number.sysCast userArgOffset 17)
      (callerSystem [.function ⟨"m", "f"⟩]) (fun r _ => r.any (·.isOk)) = true := by
    decide +kernel
  obtain ⟨r, s', hrun, htest⟩ := exists_of_finds heval
  obtain ⟨⟨_, args'⟩, rfl, haddress⟩ := (Option.any_eq_true ..).mp htest
  obtain rfl := of_decide_eq_true haddress
  obtain ⟨o, s₁, hcalled, hok⟩ := exists_of_finds hcasts
  obtain ⟨_ | reply, rfl, hok⟩ := (Option.any_eq_true ..).mp hok
  · cases hok
  obtain ⟨s₁, hcalled⟩ := called_of_castSucceeds (castSucceeds_of_called hcalled)
  obtain ⟨result, s₁', hcalled', happend⟩ := syscall_appends hrun
  cases hcalled.symm.trans hcalled'
  obtain ⟨ret, hencode, happend⟩ := happend
  cases hencode
  have hbytes := appendEncode_bytes (callerArgs_backed _) _ _ happend
  refine ⟨args', s', s₁, hrun, hcalled, hbytes, ?_⟩
  rw [hbytes]
  exact not_answers_nothing

end Faastr.Spaces
