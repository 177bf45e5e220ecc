import SelfStudy.Iocp.Server
import SelfStudy.Lib.Machine

/-!
# The server of `test_iocp`

`PostAcceptEx`, `workerThread` and `test_iocp_demo` from the return of `initServer` on, with a
listening socket and an open completion port. A step is a call of the system together with the
statements on the object in hand up to the next one; the answer of the system is part of the action.
The statements `closesocket`, `delete` and `continue`, one after the other in three places, are one
step.

The kernel's side is the outstanding operations and the packets of the port. An operation ends in any
order and in any way; its completion is queued if its socket is associated with the port. An
`OverlappedPerIo` and a socket are named by the number of their creation, so that a deleted object is
never taken for a later one. The `OVERLAPPED` and the completion key, which no function reads, and the
console output are left out. So is the branch of `PostAcceptEx` for a NULL result of `new`, which
throws instead.
-/

namespace SelfStudy.TestIocp

open Lib
open Iocp (CallResult overwrite)

/-! ## The data -/

def buffSize : ℕ := 1024

def startPostAcceptEx : ℕ := 4

/-- `sizeof(SOCKADDR_IN) + 16`. -/
def addressSize : ℕ := 16 + 16

def waitTimeout : ℕ := 258

def errorNetnameDeleted : ℕ := 64

inductive IoType
  | ioAccept
  | ioSend
  | ioRecv
  | ioConnect
  | ioDisconnect
  deriving DecidableEq, Repr

/-- What `wsaBuf.buf` points to: the `buffer` of the object, or the array `str` of the worker. -/
inductive WsaPointer
  | buffer
  | str
  deriving DecidableEq, Repr

structure WsaBuf where
  buf : WsaPointer
  len : ℕ
  deriving DecidableEq, Repr

structure OverlappedPerIo where
  socket : ℕ
  wsaBuf : WsaBuf
  type : IoType
  buffer : List UInt8
  deriving DecidableEq, Repr

/-- What `PostAcceptEx` writes into a new object. -/
def OverlappedPerIo.initial (acceptSock : ℕ) : OverlappedPerIo where
  socket := acceptSock
  wsaBuf := ⟨.buffer, buffSize⟩
  type := .ioAccept
  buffer := List.replicate buffSize 0

/-- The object as it is posted with `WSARecv`. -/
def OverlappedPerIo.forRecv (overlp : OverlappedPerIo) : OverlappedPerIo :=
  { overlp with
    buffer := List.replicate buffSize 0
    type := .ioRecv
    wsaBuf := ⟨.buffer, buffSize⟩ }

/-- The object as it is posted with `WSASend`; the answer with its final zero has 22 bytes. -/
def OverlappedPerIo.forSend (overlp : OverlappedPerIo) : OverlappedPerIo :=
  { overlp with
    type := .ioSend
    wsaBuf := ⟨.str, 22⟩ }

def listenSocket : ℕ := 0

inductive Call
  | acceptEx
  | wsaRecv
  | wsaSend
  deriving DecidableEq, Repr

/-- What an object says of the operation it was posted with. -/
def Call.type : Call → IoType
  | .acceptEx => .ioAccept
  | .wsaRecv => .ioRecv
  | .wsaSend => .ioSend

/-- An overlapped operation on `socket` with the object `overlapped`. -/
structure Operation where
  overlapped : ℕ
  call : Call
  socket : ℕ
  wsaBuf : WsaBuf
  deriving DecidableEq, Repr

/-- A packet of the completion port: `error` is `none` if the operation has succeeded. `call` is the
call that has completed, and not in the source. -/
structure Packet where
  overlapped : ℕ
  call : Call
  bytesTrans : ℕ
  error : Option ℕ
  deriving DecidableEq, Repr

/-- How an operation ends. -/
inductive Completion
  | accepted (addresses : List UInt8)
  | received (bytes : List UInt8)
  | sent (n : ℕ)
  | failed (code : ℕ)
  deriving DecidableEq, Repr

/-- The effect of a completion on the object and the packet; `none` if the operation cannot end so. -/
def Operation.finish (op : Operation) :
    Completion → Option ((OverlappedPerIo → OverlappedPerIo) × Packet)
  | .accepted addresses =>
    if op.call = .acceptEx ∧ addresses.length ≤ 2 * addressSize then
      some (fun overlp => { overlp with buffer := overwrite overlp.buffer 0 addresses },
        ⟨op.overlapped, op.call, 0, none⟩)
    else none
  | .received bytes =>
    if op.call = .wsaRecv ∧ bytes.length ≤ op.wsaBuf.len then
      some (fun overlp => { overlp with buffer := overwrite overlp.buffer 0 bytes },
        ⟨op.overlapped, op.call, bytes.length, none⟩)
    else none
  | .sent n =>
    if op.call = .wsaSend ∧ n ≤ op.wsaBuf.len then some (id, ⟨op.overlapped, op.call, n, none⟩)
    else none
  | .failed code => some (id, ⟨op.overlapped, op.call, 0, some code⟩)

/-- A call that ends a socket or an object. -/
inductive Release
  | closesocket (socket : ℕ)
  | delete (overlp : ℕ)
  deriving DecidableEq, Repr

/-- What the threads share. `objects` holds every object ever allocated and `sockets` counts the
sockets; `log` records the calls of `closesocket` and `delete`. -/
structure Shared where
  objects : List OverlappedPerIo
  sockets : ℕ
  associated : ℕ → Bool
  outstanding : List Operation
  port : List Packet
  portOpen : Bool
  log : List Release

namespace Shared

variable (y : Shared)

/-- A write to the object `o`. -/
@[simps sockets associated outstanding port portOpen log]
def modify (o : ℕ) (f : OverlappedPerIo → OverlappedPerIo) : Shared :=
  { y with objects := y.objects.modify o f }

/-- An overlapped call with the object `o`. -/
def start (o : ℕ) (call : Call) (socket : ℕ) (w : WsaBuf) (r : CallResult) : Shared :=
  if r.starts then { y with outstanding := y.outstanding ++ [⟨o, call, socket, w⟩] } else y

def complete (j : ℕ) (r : Completion) : Option Shared :=
  y.outstanding[j]?.bind fun op => (op.finish r).map fun (f, p) =>
    { y.modify op.overlapped f with
      outstanding := y.outstanding.eraseIdx j
      port := if y.associated op.socket then y.port ++ [p] else y.port }

end Shared

/-! ## The threads -/

/-- The answer of the system to a step. -/
inductive Answer
  | none
  | packet (j : ℕ)
  | call (ok : Bool)
  | overlapped (r : CallResult)
  deriving DecidableEq, Repr

/-- A thread in `PostAcceptEx`, by the statement it is about to execute. -/
inductive PostPc
  | wsaSocket
  | new (acceptSock : ℕ)
  | acceptEx (overlp : ℕ)
  deriving DecidableEq, Repr

/-- One step of `PostAcceptEx`, which is left when the second component is `none`. -/
def PostPc.step (y : Shared) : PostPc → Answer → Option (Shared × Option PostPc)
  | .wsaSocket, .call ok =>
    some (if ok then ({ y with sockets := y.sockets + 1 }, some (.new y.sockets)) else (y, none))
  | .new acceptSock, .none =>
    some ({ y with objects := y.objects ++ [.initial acceptSock] },
      some (.acceptEx y.objects.length))
  | .acceptEx overlp, .overlapped r =>
    some (y.start overlp .acceptEx listenSocket ⟨.buffer, 0⟩ r,
      if r.starts then none else some (.acceptEx overlp))
  | _, _ => none

/-- A worker, by the statement it is about to execute: `GetQueuedCompletionStatus`, the test of
`GetLastError`, the `closesocket` and `delete` of an object, the `switch`, `PostAcceptEx`,
`setsockopt`, `CreateIoCompletionPort`, `WSARecv` and `WSASend`. -/
inductive WorkerPc
  | getStatus
  | failed (p : Packet)
  | drop (p : Packet)
  | dispatch (p : Packet)
  | post (p : Packet) (q : PostPc)
  | setsockopt (overlp : ℕ)
  | associate (overlp : ℕ)
  | wsaRecv (overlp : ℕ)
  | wsaSend (overlp : ℕ)
  | returned
  deriving DecidableEq, Repr

/-- The codes of `GetLastError` that a worker takes for a disconnection. -/
def disconnected (p : Packet) : Bool :=
  p.error == some waitTimeout || p.error == some errorNetnameDeleted

/-- The `switch` of `workerThread`. -/
def Shared.dispatch (y : Shared) (p : Packet) : Option (Shared × WorkerPc) :=
  y.objects[p.overlapped]?.map fun overlp =>
    match overlp.type with
    | .ioAccept => (y, .post p .wsaSocket)
    | .ioRecv =>
      if p.bytesTrans = 0 then (y, .drop p)
      else (y.modify p.overlapped OverlappedPerIo.forSend, .wsaSend p.overlapped)
    | .ioSend => (y, if p.bytesTrans = 0 then .drop p else .getStatus)
    | .ioConnect | .ioDisconnect => (y, .getStatus)

/-- One step of a worker. `GetQueuedCompletionStatus` fails without a packet once the port is
closed. -/
def WorkerPc.step (y : Shared) : WorkerPc → Answer → Option (Shared × WorkerPc)
  | .getStatus, .packet j =>
    if y.portOpen then
      (y.port[j]?).map fun p =>
        ({ y with port := y.port.eraseIdx j }, if p.error = none then .dispatch p else .failed p)
    else none
  | .getStatus, .none => if y.portOpen then none else some (y, .returned)
  | .failed p, .none => some (y, if disconnected p then .drop p else .returned)
  | .drop p, .none =>
    y.objects[p.overlapped]?.map fun overlp =>
      ({ y with log := y.log ++ [.closesocket overlp.socket, .delete p.overlapped] }, .getStatus)
  | .dispatch p, .none => y.dispatch p
  | .post p q, ans =>
    (q.step y ans).map fun (y, q) => (y, q.elim (.setsockopt p.overlapped) (.post p))
  | .setsockopt o, .call _ => some (y.modify o OverlappedPerIo.forRecv, .associate o)
  | .associate o, .call ok =>
    y.objects[o]?.map fun overlp =>
      (if ok then { y with associated := Function.update y.associated overlp.socket true } else y,
        .wsaRecv o)
  | .wsaRecv o, .overlapped r =>
    y.objects[o]?.map fun overlp =>
      (y.start o .wsaRecv overlp.socket overlp.wsaBuf r, .getStatus)
  | .wsaSend o, .overlapped r =>
    y.objects[o]?.map fun overlp =>
      (y.start o .wsaSend overlp.socket overlp.wsaBuf r, .getStatus)
  | _, _ => none

/-! ## What a thread can do -/

section Steps

variable (y : Shared)

inductive PostStep : PostPc → Answer → Shared → Option PostPc → Prop
  | socket : PostStep .wsaSocket (.call true) { y with sockets := y.sockets + 1 }
      (some (.new y.sockets))
  | noSocket : PostStep .wsaSocket (.call false) y none
  | made {s} : PostStep (.new s) .none { y with objects := y.objects ++ [.initial s] }
      (some (.acceptEx y.objects.length))
  | started {o r} (hr : r.starts = true) :
    PostStep (.acceptEx o) (.overlapped r)
      { y with outstanding := y.outstanding ++ [⟨o, .acceptEx, listenSocket, ⟨.buffer, 0⟩⟩] } none
  | retry {o r} (hr : r.starts = false) :
    PostStep (.acceptEx o) (.overlapped r) y (some (.acceptEx o))

inductive WorkerStep : WorkerPc → Answer → Shared → WorkerPc → Prop
  | dequeued {j p} (ho : y.portOpen = true) (h : y.port[j]? = some p) (he : p.error = none) :
    WorkerStep .getStatus (.packet j) { y with port := y.port.eraseIdx j } (.dispatch p)
  | dequeuedFailed {j p} (ho : y.portOpen = true) (h : y.port[j]? = some p) (he : p.error ≠ none) :
    WorkerStep .getStatus (.packet j) { y with port := y.port.eraseIdx j } (.failed p)
  | abandoned (ho : y.portOpen = false) : WorkerStep .getStatus .none y .returned
  | disconnected {p} (h : disconnected p = true) : WorkerStep (.failed p) .none y (.drop p)
  | gaveUp {p} (h : disconnected p = false) : WorkerStep (.failed p) .none y .returned
  | dropped {p overlp} (h : y.objects[p.overlapped]? = some overlp) :
    WorkerStep (.drop p) .none
      { y with log := y.log ++ [.closesocket overlp.socket, .delete p.overlapped] } .getStatus
  | accepted {p overlp} (h : y.objects[p.overlapped]? = some overlp)
    (ht : overlp.type = .ioAccept) : WorkerStep (.dispatch p) .none y (.post p .wsaSocket)
  | empty {p overlp} (h : y.objects[p.overlapped]? = some overlp)
    (ht : overlp.type = .ioRecv ∨ overlp.type = .ioSend) (hn : p.bytesTrans = 0) :
    WorkerStep (.dispatch p) .none y (.drop p)
  | received {p overlp} (h : y.objects[p.overlapped]? = some overlp)
    (ht : overlp.type = .ioRecv) (hn : p.bytesTrans ≠ 0) :
    WorkerStep (.dispatch p) .none (y.modify p.overlapped OverlappedPerIo.forSend)
      (.wsaSend p.overlapped)
  | sent {p overlp} (h : y.objects[p.overlapped]? = some overlp)
    (ht : overlp.type = .ioSend) (hn : p.bytesTrans ≠ 0) :
    WorkerStep (.dispatch p) .none y .getStatus
  | unknown {p overlp} (h : y.objects[p.overlapped]? = some overlp)
    (ht : overlp.type = .ioConnect ∨ overlp.type = .ioDisconnect) :
    WorkerStep (.dispatch p) .none y .getStatus
  | posting {p q ans y' q'} (h : PostStep y q ans y' (some q')) :
    WorkerStep (.post p q) ans y' (.post p q')
  | posted {p q ans y'} (h : PostStep y q ans y' none) :
    WorkerStep (.post p q) ans y' (.setsockopt p.overlapped)
  | prepared {o ok} :
    WorkerStep (.setsockopt o) (.call ok) (y.modify o OverlappedPerIo.forRecv) (.associate o)
  | associated {o overlp} (h : y.objects[o]? = some overlp) :
    WorkerStep (.associate o) (.call true)
      { y with associated := Function.update y.associated overlp.socket true } (.wsaRecv o)
  | notAssociated {o overlp} (h : y.objects[o]? = some overlp) :
    WorkerStep (.associate o) (.call false) y (.wsaRecv o)
  | receiving {o overlp r} (h : y.objects[o]? = some overlp) :
    WorkerStep (.wsaRecv o) (.overlapped r)
      (y.start o .wsaRecv overlp.socket overlp.wsaBuf r) .getStatus
  | sending {o overlp r} (h : y.objects[o]? = some overlp) :
    WorkerStep (.wsaSend o) (.overlapped r)
      (y.start o .wsaSend overlp.socket overlp.wsaBuf r) .getStatus

variable {y}

theorem PostPc.step_cases {q : PostPc} {ans : Answer} {x : Shared × Option PostPc}
    (h : q.step y ans = some x) : PostStep y q ans x.1 x.2 := by
  cases q <;> cases ans <;> try cases (show none = some x from h)
  case wsaSocket.call ok =>
    obtain rfl := Option.some.inj h
    cases ok with
    | true => exact .socket
    | false => exact .noSocket
  case new.none s => exact Option.some.inj h ▸ .made
  case acceptEx.overlapped o r =>
    obtain rfl := Option.some.inj h
    unfold Shared.start
    cases hr : r.starts with
    | true => exact .started hr
    | false => exact .retry hr

theorem Shared.dispatch_cases {p : Packet} {x : Shared × WorkerPc} (h : y.dispatch p = some x) :
    WorkerStep y (.dispatch p) .none x.1 x.2 := by
  obtain ⟨overlp, ho, rfl⟩ := Option.map_eq_some_iff.mp h
  by_cases hn : p.bytesTrans = 0 <;> cases ht : overlp.type <;> simp only [hn, if_true, if_false]
  case pos.ioAccept | neg.ioAccept => exact .accepted ho ht
  case pos.ioRecv => exact .empty ho (.inl ht) hn
  case pos.ioSend => exact .empty ho (.inr ht) hn
  case neg.ioRecv => exact .received ho ht hn
  case neg.ioSend => exact .sent ho ht hn
  case pos.ioConnect | neg.ioConnect => exact .unknown ho (.inl ht)
  case pos.ioDisconnect | neg.ioDisconnect => exact .unknown ho (.inr ht)

theorem WorkerPc.step_cases {pc : WorkerPc} {ans : Answer} {x : Shared × WorkerPc}
    (h : pc.step y ans = some x) : WorkerStep y pc ans x.1 x.2 := by
  cases pc with
  | getStatus =>
    cases ans with
    | packet j =>
      obtain ⟨ho, h⟩ := Option.ite_none_right_eq_some.mp h
      obtain ⟨p, hp, rfl⟩ := Option.map_eq_some_iff.mp h
      by_cases he : p.error = none
      · simpa only [he, if_true] using WorkerStep.dequeued ho hp he
      · simpa only [he, if_false] using WorkerStep.dequeuedFailed ho hp he
    | none =>
      obtain ⟨ho, h⟩ := Option.ite_none_left_eq_some.mp h
      exact Option.some.inj h ▸ .abandoned (by simpa using ho)
    | _ => cases h
  | failed p =>
    cases ans with
    | none =>
      obtain rfl := Option.some.inj h
      cases hd : TestIocp.disconnected p with
      | true => exact .disconnected hd
      | false => exact .gaveUp hd
    | _ => cases h
  | drop p =>
    cases ans with
    | none =>
      obtain ⟨overlp, ho, rfl⟩ := Option.map_eq_some_iff.mp h
      exact .dropped ho
    | _ => cases h
  | dispatch p =>
    cases ans with
    | none => exact Shared.dispatch_cases h
    | _ => cases h
  | post p q =>
    obtain ⟨⟨y', q'⟩, hq, rfl⟩ := Option.map_eq_some_iff.mp h
    have hstep := PostPc.step_cases hq
    cases q' with
    | none => exact .posted hstep
    | some q' => exact .posting hstep
  | setsockopt o =>
    cases ans with
    | call ok => exact Option.some.inj h ▸ .prepared
    | _ => cases h
  | associate o =>
    cases ans with
    | call ok =>
      obtain ⟨overlp, ho, rfl⟩ := Option.map_eq_some_iff.mp h
      cases ok with
      | true => exact .associated ho
      | false => exact .notAssociated ho
    | _ => cases h
  | wsaRecv o =>
    cases ans with
    | overlapped r =>
      obtain ⟨overlp, ho, rfl⟩ := Option.map_eq_some_iff.mp h
      exact .receiving ho
    | _ => cases h
  | wsaSend o =>
    cases ans with
    | overlapped r =>
      obtain ⟨overlp, ho, rfl⟩ := Option.map_eq_some_iff.mp h
      exact .sending ho
    | _ => cases h
  | returned => cases h

/-- **Inversion** of a completion. -/
theorem Shared.complete_cases {y' : Shared} {j : ℕ} {r : Completion}
    (h : y.complete j r = some y') : ∃ op f p, y.outstanding[j]? = some op ∧
      op.finish r = some (f, p) ∧
      y' = { y.modify op.overlapped f with
        outstanding := y.outstanding.eraseIdx j
        port := if y.associated op.socket then y.port ++ [p] else y.port } := by
  obtain ⟨op, hop, h⟩ := Option.bind_eq_some_iff.mp h
  obtain ⟨⟨f, p⟩, hfin, rfl⟩ := Option.map_eq_some_iff.mp h
  exact ⟨op, f, p, hop, hfin, rfl⟩

end Steps

/-- `test_iocp_demo`, by the statement it is about to execute: in the `i`th call of `PostAcceptEx`,
at `std::cin.get()`, at `CloseHandle`, and at its end. -/
inductive MainPc
  | post (i : ℕ) (q : PostPc)
  | wait
  | closeHandle
  | returned
  deriving DecidableEq, Repr

/-- The loop that posts the first accepts, before its `i`th round. -/
def MainPc.loop (i : ℕ) : MainPc := if i < startPostAcceptEx then .post i .wsaSocket else .wait

def MainPc.step (y : Shared) : MainPc → Answer → Option (Shared × MainPc)
  | .post i q, ans => (q.step y ans).map fun (y, q) => (y, q.elim (.loop (i + 1)) (.post i))
  | .wait, .none => some ({ y with log := y.log ++ [.closesocket listenSocket] }, .closeHandle)
  | .closeHandle, .none => some ({ y with portOpen := false }, .returned)
  | _, _ => none

/-! ## The server -/

/-- The server; `failures` records which worker has dequeued which failed completion. -/
structure Server where
  y : Shared
  workers : List WorkerPc
  main : MainPc
  failures : List (ℕ × ℕ)

inductive Action
  | worker (i : ℕ) (ans : Answer)
  | main (ans : Answer)
  | complete (j : ℕ) (r : Completion)
  deriving DecidableEq, Repr

/-- The failed completion that a worker has dequeued with the step to `pc'`. -/
def failure (i : ℕ) (pc pc' : WorkerPc) : List (ℕ × ℕ) :=
  match pc, pc' with
  | .getStatus, .failed p => [(i, p.overlapped)]
  | _, _ => []

namespace Server

/-- After `initServer` and the creation of the workers. -/
def initial (workers : ℕ) : Server where
  y := ⟨[], listenSocket + 1, fun s => s == listenSocket, [], [], true, []⟩
  workers := List.replicate workers .getStatus
  main := .loop 0
  failures := []

def step (s : Server) : Action → Option Server
  | .worker i ans =>
    s.workers[i]?.bind fun pc => (pc.step s.y ans).map fun (y, pc') =>
      { s with y := y, workers := s.workers.set i pc', failures := s.failures ++ failure i pc pc' }
  | .main ans => (s.main.step s.y ans).map fun (y, pc) => { s with y := y, main := pc }
  | .complete j r => (s.y.complete j r).map fun y => { s with y := y }

def machine : Machine Server Action where
  init s := ∃ workers, s = initial workers
  step := step

/-- `std::cin.get()` has not returned. -/
def serving (s : Server) : Bool :=
  match s.main with
  | .post _ _ | .wait => true
  | _ => false

/-- The first posts of `test_iocp_demo`. -/
def posts : List Action :=
  (List.replicate startPostAcceptEx
    [.main (.call true), .main .none, .main (.overlapped .success)]).flatten

/-- The first client, whose accept the first worker takes. -/
def connect : List Action :=
  [.complete 0 (.accepted []), .worker 0 (.packet 0), .worker 0 .none, .worker 0 (.call true),
    .worker 0 .none, .worker 0 (.overlapped .success), .worker 0 (.call true),
    .worker 0 (.call true), .worker 0 (.overlapped .success)]

inductive Step (s : Server) : Action → Server → Prop
  | worker {i ans pc y' pc'} (hi : s.workers[i]? = some pc) (h : WorkerStep s.y pc ans y' pc') :
    Step s (.worker i ans) { s with
      y := y', workers := s.workers.set i pc', failures := s.failures ++ failure i pc pc' }
  | post {k q ans y' q'} (hm : s.main = .post k q) (h : PostStep s.y q ans y' q') :
    Step s (.main ans) { s with y := y', main := q'.elim (.loop (k + 1)) (.post k) }
  | shutdown {ans s'} (h : s'.serving = false) : Step s (.main ans) s'
  | complete {j r y'} (h : s.y.complete j r = some y') : Step s (.complete j r) { s with y := y' }

/-- The steps of `test_iocp_demo`, with those of the shutdown. -/
inductive MainStep (s : Server) (ans : Answer) : Server → Prop
  | post {k q y' q'} (hm : s.main = .post k q) (h : PostStep s.y q ans y' q') :
    MainStep s ans { s with y := y', main := q'.elim (.loop (k + 1)) (.post k) }
  | closesocket (hm : s.main = .wait) :
    MainStep s ans { s with
      y := { s.y with log := s.y.log ++ [.closesocket listenSocket] }, main := .closeHandle }
  | closeHandle (hm : s.main = .closeHandle) :
    MainStep s ans { s with y := { s.y with portOpen := false }, main := .returned }

variable {s s' : Server} {a : Action}

/-- **Inversion** of a step of `test_iocp_demo`. -/
theorem step_main_cases {ans : Answer} (h : s.step (.main ans) = some s') : MainStep s ans s' := by
  obtain ⟨⟨y', pc'⟩, hpc, rfl⟩ := Option.map_eq_some_iff.mp h
  cases hm : s.main with
  | post k q =>
    rw [hm] at hpc
    obtain ⟨⟨y', q'⟩, hq, heq⟩ := Option.map_eq_some_iff.mp hpc
    obtain ⟨rfl, rfl⟩ := Prod.mk.inj heq
    exact .post hm (PostPc.step_cases hq)
  | wait =>
    rw [hm] at hpc
    cases ans <;> try cases (show none = some _ from hpc)
    obtain ⟨rfl, rfl⟩ := Prod.mk.inj (Option.some.inj hpc)
    exact .closesocket hm
  | closeHandle =>
    rw [hm] at hpc
    cases ans <;> try cases (show none = some _ from hpc)
    obtain ⟨rfl, rfl⟩ := Prod.mk.inj (Option.some.inj hpc)
    exact .closeHandle hm
  | returned =>
    rw [hm] at hpc
    cases hpc

theorem step_cases (h : s.step a = some s') : Step s a s' := by
  cases a with
  | worker i ans =>
    obtain ⟨pc, hi, h⟩ := Option.bind_eq_some_iff.mp h
    obtain ⟨⟨y', pc'⟩, hpc, rfl⟩ := Option.map_eq_some_iff.mp h
    exact .worker hi (WorkerPc.step_cases hpc)
  | main ans =>
    cases step_main_cases h with
    | post hm hq => exact .post hm hq
    | closesocket => exact .shutdown rfl
    | closeHandle => exact .shutdown rfl
  | complete j r =>
    obtain ⟨y', hy, rfl⟩ := Option.map_eq_some_iff.mp h
    exact .complete hy

theorem Step.serving (h : Step s a s') (hs' : s'.serving = true) : s.serving = true := by
  cases h with
  | worker | complete => exact hs'
  | post hm => rw [Server.serving, hm]
  | shutdown h => exact absurd hs' (by rw [h]; decide)

end Server

end SelfStudy.TestIocp
