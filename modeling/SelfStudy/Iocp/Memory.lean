import Mathlib.Logic.Function.Basic
import Mathlib.Tactic.Common
import Mathlib.Tactic.Simps.Basic

/-!
# The data of `iocpserverex`

`PER_IO_CONTEXT`, `PER_SOCKET_CONTEXT` and the globals of `IocpServerex.cpp`, with the heap the
contexts live in.

A context is an address. `ctxt a` is what the memory at `a` holds and `live a` says whether the
block is allocated: a freed block keeps its contents until it is allocated again, which zeroes it
(`HEAP_ZERO_MEMORY`), and every access to a freed block sets `fault`. The chain of I/O contexts
that hangs off a socket context through `pIOContextForward` is a list, the empty one being NULL.

The function pointer `fnAcceptEx`, the fields of `WSAOVERLAPPED` other than the status word and the
console output are left out: no function reads them.
-/

namespace SelfStudy.Iocp

/-- `MAX_BUFF_SIZE`. -/
def maxBuffSize : ℕ := 8192

/-- `sizeof(SOCKADDR_STORAGE) + 16`, the room AcceptEx needs for each of the two addresses. -/
def acceptAddrSize : ℕ := 128 + 16

/-- The length posted with AcceptEx: the buffer without the address area at its end. -/
def acceptDataLength : ℕ := maxBuffSize - 2 * acceptAddrSize

abbrev Addr := ℕ

/-- A socket, by the number of its creation; `INVALID_SOCKET` is `none : Option Socket`. -/
abbrev Socket := ℕ

inductive IoOperation
  | clientIoAccept
  | clientIoRead
  | clientIoWrite
  deriving DecidableEq, Repr

/-- A `WSABUF` into the `Buffer` of its own context: the offset of `buf` and `len`. -/
structure Wsabuf where
  buf : ℕ
  len : ℕ
  deriving DecidableEq, Repr

/-- `PER_IO_CONTEXT`. `pending` is `Overlapped.Internal == STATUS_PENDING`. -/
structure PerIoContext where
  pending : Bool
  buffer : List UInt8
  wsabuf : Wsabuf
  nTotalBytes : ℕ
  nSentBytes : ℕ
  ioOperation : IoOperation
  socketAccept : Option Socket
  deriving DecidableEq, Repr

/-- `PER_SOCKET_CONTEXT`. `serial` numbers the allocations and is not in the source. -/
structure PerSocketContext where
  socket : Option Socket
  pIOContext : List PerIoContext
  pCtxtBack : Option Addr
  pCtxtForward : Option Addr
  serial : ℕ
  deriving DecidableEq, Repr

/-- What `CtxtAllocate` writes into the I/O context. -/
def PerIoContext.initial (clientIo : IoOperation) : PerIoContext where
  pending := false
  buffer := List.replicate maxBuffSize 0
  wsabuf := ⟨0, maxBuffSize⟩
  nTotalBytes := 0
  nSentBytes := 0
  ioOperation := clientIo
  socketAccept := none

/-- The globals of the server and the heap. The last five fields are not in the source:
they count the sockets and contexts created, and record the contexts `CloseClient` was called on,
the sockets passed to `closesocket` and accesses to freed blocks. -/
structure Globals where
  ctxt : Addr → PerSocketContext
  live : Addr → Bool
  pCtxtList : Option Addr
  pCtxtListenSocket : Option Addr
  sdListen : Option Socket
  hIocp : Bool
  bEndServer : Bool
  criticalSection : ℕ
  sockets : ℕ
  serial : ℕ
  closeCalls : List ℕ
  closed : List Socket
  fault : Bool

namespace Globals

/-- The globals as the program starts, with an empty heap. -/
def initial : Globals where
  ctxt _ := ⟨none, [], none, none, 0⟩
  live _ := false
  pCtxtList := none
  pCtxtListenSocket := none
  sdListen := none
  hIocp := true
  bEndServer := false
  criticalSection := 0
  sockets := 0
  serial := 0
  closeCalls := []
  closed := []
  fault := false

variable (g : Globals)

/-- `EnterCriticalSection`: the recursion count of the calling thread. -/
@[simps] def enter : Globals := { g with criticalSection := g.criticalSection + 1 }

/-- `LeaveCriticalSection`. -/
@[simps] def leave : Globals := { g with criticalSection := g.criticalSection - 1 }

/-- A read through the pointer `a`. -/
@[simps] def touch (a : Addr) : Globals := { g with fault := g.fault || !g.live a }

/-- A write through the pointer `a`. -/
@[simps live pCtxtList pCtxtListenSocket sdListen hIocp bEndServer criticalSection sockets serial
  closeCalls closed fault]
def modify (a : Addr) (f : PerSocketContext → PerSocketContext) : Globals :=
  { g with ctxt := Function.update g.ctxt a (f (g.ctxt a)), fault := g.fault || !g.live a }

/-- Assignment to `g_pCtxtList`. -/
@[simps] def setCtxtList (p : Option Addr) : Globals := { g with pCtxtList := p }

/-- `xmalloc` of a socket context: a zeroed block. -/
@[simps] def allocate (a : Addr) : Globals :=
  { g with
    ctxt := Function.update g.ctxt a ⟨none, [], none, none, g.serial⟩
    live := Function.update g.live a true
    serial := g.serial + 1 }

/-- `xfree`, which leaves the contents behind. -/
@[simps] def free (a : Addr) : Globals := { g with live := Function.update g.live a false }

variable {g}

theorem modify_proj {β : Type*} (p : PerSocketContext → β) (a b : Addr)
    (f : PerSocketContext → PerSocketContext) :
    p ((g.modify a f).ctxt b) = if b = a then p (f (g.ctxt b)) else p (g.ctxt b) := by
  show p (Function.update g.ctxt a (f (g.ctxt a)) b) = _
  rw [Function.update_apply]
  split_ifs with h
  · rw [h]
  · rfl

section Fields

variable (a b : Addr) (f : PerSocketContext → PerSocketContext)

@[simp] theorem ctxt_modify_socket : ((g.modify a f).ctxt b).socket =
    if b = a then (f (g.ctxt b)).socket else (g.ctxt b).socket := modify_proj _ a b f

@[simp] theorem ctxt_modify_pIOContext : ((g.modify a f).ctxt b).pIOContext =
    if b = a then (f (g.ctxt b)).pIOContext else (g.ctxt b).pIOContext := modify_proj _ a b f

@[simp] theorem ctxt_modify_pCtxtBack : ((g.modify a f).ctxt b).pCtxtBack =
    if b = a then (f (g.ctxt b)).pCtxtBack else (g.ctxt b).pCtxtBack := modify_proj _ a b f

@[simp] theorem ctxt_modify_pCtxtForward : ((g.modify a f).ctxt b).pCtxtForward =
    if b = a then (f (g.ctxt b)).pCtxtForward else (g.ctxt b).pCtxtForward := modify_proj _ a b f

@[simp] theorem ctxt_modify_serial : ((g.modify a f).ctxt b).serial =
    if b = a then (f (g.ctxt b)).serial else (g.ctxt b).serial := modify_proj _ a b f

end Fields

end Globals

/-! ## Contexts -/

/-- The heap's answers to the two `xmalloc` calls of `CtxtAllocate`: both blocks, no socket context,
or a socket context and no I/O context. -/
inductive Allocation
  | ok (a : Addr)
  | noSocketContext
  | noIoContext (a : Addr)
  deriving DecidableEq, Repr

/-- `CtxtAllocate`. Without memory for the socket context it returns inside the critical section;
without memory for the I/O context it returns the block it has just freed. -/
def ctxtAllocate (sd : Option Socket) (clientIo : IoOperation) (answer : Allocation)
    (g : Globals) : Globals × Option Addr :=
  match answer with
  | .ok a =>
    (((g.enter.allocate a).modify a fun c =>
      { c with socket := sd, pIOContext := [.initial clientIo],
               pCtxtBack := none, pCtxtForward := none }).leave, some a)
  | .noSocketContext => (g.enter, none)
  | .noIoContext a => (((g.enter.allocate a).free a).leave, some a)

end SelfStudy.Iocp
