import Faastr.Sos.RoundTrip

/-!
What a request does at the callee: `dispatch` of the host daemon
(`ivshrpcd/src/bin/dispatch.rs`), `sys_fuse` and `sys_cast` of the kernel
(`kernel/src/syscall/call.rs`), and the arguments `fuse_proxy` hands to the latter
(`kernel/src/devices/ivshmem.rs`).

All three decode a function off the front of the arguments and refuse the request
with an error message if there is none. What the function itself does with the
rest of the arguments is a parameter, and so is what the kernel does to find and
start it.
-/

namespace Faastr.Ivshrpc

open Faastr.Lib Faastr.Sos

/-- The encoded result of a call: `Ok` with values, or `Err` with an error. -/
abbrev Outcome := Except (List UInt8) (List UInt8)

/-- What the functions behind a call do, given their name and arguments. -/
structure Callee where
  /-- A `FuseFunc` of the host. -/
  value : Function → DecodeIter → List UInt8
  /-- `initfs_module` and `fuse_name` of the kernel. -/
  fuseName : Function → DecodeIter → Except String (List UInt8)
  /-- `initfs_module` and `cast_name` of the kernel. -/
  castName : Function → DecodeIter → Except String Unit

/-- `JustError::new(error)`, encoded. -/
def justError (error : String) : List UInt8 := message [.error error]

/-- `TryInto<Function>`. -/
def tryIntoFunction : Value → Except String Function
  | .function f => .ok f
  | _ => .error "Incorrect type, wanted: Function<'a>"

/-- The function that a request names, with the arguments that follow it. -/
def requested (undecodable : String) (args : List UInt8) :
    Checked (Except String (Function × DecodeIter)) := do
  match ← decodeSos args true with
  | none => return .error undecodable
  | some iter =>
      match ← iter.next with
      | (none, _) => return .error "Not enough arguments"
      | (some val, iter) => return (tryIntoFunction val).map (·, iter)

/-! ### The host -/

inductive FuncKind where
  | cast
  | fuse
deriving DecidableEq, Repr

/-- `FUNC_TABLE`. -/
def funcTable : List (Function × FuncKind) :=
  [(⟨"host", "hello"⟩, .cast), (⟨"host", "hello_fuse"⟩, .fuse), (⟨"host", "cast_test"⟩, .cast)]

/-- The entry of `FUNC_TABLE`, called as a request asks. -/
def callEntry (value : Function → DecodeIter → List UInt8) (fuse : Bool) (function : Function)
    (iter : DecodeIter) : Except String (List UInt8) :=
  match funcTable.lookup function, fuse with
  | none, _ => .error "No such function"
  | some .fuse, true => .ok (value function iter)
  | some .cast, true => .error "Attempt to fuse to a cast only function"
  | some .cast, false => .ok (message [])
  | some .fuse, false => .error "Attempt to cast to a fuse only function"

/-- `dispatch`. -/
def dispatch (value : Function → DecodeIter → List UInt8) (args : List UInt8) (fuse : Bool) :
    Checked Outcome := do
  match ← requested "Could not decode argumenta" args with
  | .error e => return .error (justError e)
  | .ok (function, iter) => return (callEntry value fuse function iter).mapError justError

/-! ### The kernel -/

/-- `sys_fuse`. -/
def sysFuse (fuseName : Function → DecodeIter → Except String (List UInt8)) (args : List UInt8) :
    Checked Outcome := do
  match ← requested "Could not decode SOS" args with
  | .error e => return .error (justError e)
  | .ok (function, iter) => return (fuseName function iter).mapError justError

/-- `sys_cast`. -/
def sysCast (castName : Function → DecodeIter → Except String Unit) (args : List UInt8) :
    Checked (Except (List UInt8) Unit) := do
  match ← requested "Could not decode SOS" args with
  | .error e => return .error (justError e)
  | .ok (function, iter) => return (castName function iter).mapError justError

/-- What `fuse_proxy` takes for the arguments: the first 4096 bytes of the argument
memory, which is zero behind the arguments. -/
def proxyArgs (args : List UInt8) : List UInt8 := (args ++ List.replicate 4096 0).take 4096

/-! ### No request makes a callee panic -/

theorem requested_succeeds (undecodable : String) (args : List UInt8) :
    Succeeds (requested undecodable args) := by
  refine .bind (decodeSos_succeeds args true) fun iter _ => ?_
  cases iter with
  | none => exact .pure _
  | some iter =>
    refine .bind (next_succeeds iter) fun r _ => ?_
    obtain ⟨_ | val, iter⟩ := r
    · exact .pure _
    · exact .pure _

theorem sysFuse_succeeds (fuseName : Function → DecodeIter → Except String (List UInt8))
    (args : List UInt8) : Succeeds (sysFuse fuseName args) := by
  refine .bind (requested_succeeds _ args) fun r _ => ?_
  cases r with
  | error e => exact .pure _
  | ok r => exact .pure _

/-! ### When the proxy sees the whole request -/

/-- A request that fits the proxy's view, and that the decoder accepts. -/
def Whole (args : List UInt8) : Prop :=
  args.length ≤ 4096 ∧ ∃ iter, decodeSos args true = .ok (some iter)

/-- What follows a message does not matter to the decoder. -/
theorem decodeSos_append {buff : List UInt8} {lazy : Bool} {it : DecodeIter} (pad : List UInt8)
    (h : decodeSos buff lazy = .ok (some it)) : decodeSos (buff ++ pad) lazy = .ok (some it) := by
  have hslice : ∀ {lo hi : Nat} {w : List UInt8}, slice buff lo hi = .ok w →
      slice (buff ++ pad) lo hi = .ok w := by
    intro lo hi w hw
    obtain ⟨hle, hhi, rfl⟩ := slice_eq_ok_iff.mp hw
    refine slice_eq_ok_iff.mpr ⟨hle, by rw [List.length_append]; omega, ?_⟩
    rw [List.drop_append_of_le_length (by omega),
      List.take_append_of_le_length (by rw [List.length_drop]; omega)]
  unfold decodeSos at h ⊢
  split at h
  · cases h
  · rename_i hlong
    obtain ⟨w₀, hw₀, h⟩ := bind_eq_ok.mp h
    obtain ⟨count, hcount, h⟩ := bind_eq_ok.mp h
    obtain ⟨w₁, hw₁, h⟩ := bind_eq_ok.mp h
    obtain ⟨size, hsize, h⟩ := bind_eq_ok.mp h
    split at h
    · cases h
    · rename_i hroom
      obtain ⟨body, hbody, h⟩ := bind_eq_ok.mp h
      cases h
      rw [if_neg (by rw [List.length_append]; omega)]
      refine bind_eq_ok.mpr ⟨w₀, hslice hw₀, bind_eq_ok.mpr ⟨count, hcount,
        bind_eq_ok.mpr ⟨w₁, hslice hw₁, bind_eq_ok.mpr ⟨size, hsize, ?_⟩⟩⟩⟩
      rw [if_neg (by rw [List.length_append]; omega)]
      exact bind_eq_ok.mpr ⟨body, hslice hbody, rfl⟩

/-- **A whole request is served as if it had been passed on unchanged.** -/
theorem sysFuse_proxyArgs {args : List UInt8} (h : Whole args)
    (fuseName : Function → DecodeIter → Except String (List UInt8)) :
    sysFuse fuseName (proxyArgs args) = sysFuse fuseName args := by
  obtain ⟨hlen, iter, hiter⟩ := h
  have hpad : proxyArgs args = args ++ List.replicate (4096 - args.length) 0 := by
    rw [proxyArgs, List.take_append, List.take_of_length_le hlen, List.take_replicate,
      Nat.min_eq_left (Nat.sub_le _ _)]
  have hsame : decodeSos (proxyArgs args) true = decodeSos args true := by
    rw [hpad, decodeSos_append _ hiter, hiter]
  unfold sysFuse requested
  rw [hsame]

end Faastr.Ivshrpc
