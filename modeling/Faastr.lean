import Faastr.Acpi.Tables
import Faastr.Aml.Bcd
import Faastr.Aml.Bounds
import Faastr.Aml.Context
import Faastr.Aml.Expressions
import Faastr.Aml.Index
import Faastr.Aml.Integers
import Faastr.Aml.Match
import Faastr.Aml.Mutex
import Faastr.Aml.Parser
import Faastr.Aml.Scope
import Faastr.Aml.Terms
import Faastr.Aml.Value
import Faastr.Devices.Pci
import Faastr.Devices.Rtc
import Faastr.Externs.Memory
import Faastr.Ivshrpc.Delivery
import Faastr.Ivshrpc.Dispatch
import Faastr.Ivshrpc.Exchange
import Faastr.Ivshrpc.Header
import Faastr.Ivshrpc.Matching
import Faastr.Ivshrpc.Rpc
import Faastr.Ivshrpc.Stream
import Faastr.Ivshrpc.Wakeup
import Faastr.Lib.Allocator
import Faastr.Lib.Blocks
import Faastr.Lib.ByteMemory
import Faastr.Lib.Circular
import Faastr.Lib.Cursor
import Faastr.Lib.Cycle
import Faastr.Lib.Decided
import Faastr.Lib.Digits
import Faastr.Lib.Ensures
import Faastr.Lib.LittleEndian
import Faastr.Lib.OrdMap
import Faastr.Lib.Radix
import Faastr.Lib.Slice
import Faastr.Lib.Transition
import Faastr.Lib.Utf8
import Faastr.Libc.Lists
import Faastr.Libc.Strings
import Faastr.Loader.Elf
import Faastr.Loader.Image
import Faastr.Loader.Load
import Faastr.Memory.Accounting
import Faastr.Memory.Bump
import Faastr.Memory.Frames
import Faastr.Memory.FreeList
import Faastr.Memory.Handout
import Faastr.Memory.Phys
import Faastr.Memory.Recycle
import Faastr.Memory.Valloc
import Faastr.Paging.Entry
import Faastr.Paging.Mapper
import Faastr.Paging.Operations
import Faastr.Paging.Refinement
import Faastr.Paging.Table
import Faastr.Paging.Tree
import Faastr.Paging.Validate
import Faastr.Ringbuf.Calls
import Faastr.Ringbuf.Power
import Faastr.Ringbuf.Ring
import Faastr.Ringbuf.Safety
import Faastr.Ringbuf.Unbounded
import Faastr.Sched.Actions
import Faastr.Sched.Books
import Faastr.Sched.CallStack
import Faastr.Sched.Change
import Faastr.Sched.Context
import Faastr.Sched.ContextIds
import Faastr.Sched.Cpu
import Faastr.Sched.Exit
import Faastr.Sched.Fuse
import Faastr.Sched.HostCall
import Faastr.Sched.RoundRobin
import Faastr.Sched.Running
import Faastr.Sched.Sleep
import Faastr.Sched.Stacks
import Faastr.Sched.Switch
import Faastr.Sched.WaitpidKey
import Faastr.Sos.Announced
import Faastr.Sos.Decode
import Faastr.Sos.Encode
import Faastr.Sos.Forward
import Faastr.Sos.Layout
import Faastr.Sos.Lazy
import Faastr.Sos.Libc
import Faastr.Sos.RoundTrip
import Faastr.Sos.Value
import Faastr.Spaces.Arena
import Faastr.Spaces.Arguments
import Faastr.Spaces.Brk
import Faastr.Spaces.Isolation
import Faastr.Spaces.Load
import Faastr.Spaces.Memory
import Faastr.Spaces.NewSpace
import Faastr.Spaces.Pool
import Faastr.Spaces.Resize
import Faastr.Spaces.Spawn
import Faastr.Spaces.Syscall
import Faastr.Spaces.Tables
import Faastr.Symbind.Annotations
