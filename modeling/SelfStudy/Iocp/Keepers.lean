import SelfStudy.Iocp.Frame
import SelfStudy.Lib.Count

/-!
# Who holds a context

A client context is in the keeping of an outstanding operation, of a packet of the port, or of a
worker. `OpOk`, `PacketOk` and `PcOk` are what each of them knows of its context, and `Frame` is what
a step leaves alone that writes to one context only: what the other keepers know stays true.

`Numbered` is the bookkeeping of the contexts' numbers, by which a context is told from a later one
at the same address.
-/

namespace SelfStudy.Iocp

open Lib Globals

/-! ## Keepers -/

/-- The operation that a handler has to set before it posts. -/
def Post.operation : Post → IoOperation
  | .send _ => .clientIoWrite
  | .recv _ => .clientIoRead

namespace Operation

/-- The client that the operation belongs to; AcceptEx belongs to the listening context. -/
def client (op : Operation) : Option Addr :=
  match op.call with
  | .acceptEx => none
  | .post _ => some op.overlapped

def isAccept (op : Operation) : Bool := op.call == .acceptEx

/-- The operation belongs to the client `a`. -/
def ofClient (a : Addr) (op : Operation) : Bool := op.client == some a

end Operation

/-- The packet is the completion of an operation of the kind `f`. -/
def Packet.holds (f : Operation → Bool) : Packet → Bool
  | .quit => false
  | .completed op _ _ _ => f op

namespace WorkerPc

/-- The client context that the worker has dequeued or just created. -/
def client : WorkerPc → Option Addr
  | .testEnd _ op _ _ | .dispatch _ op _ _ => op.client
  | .post k _ _ | .close k => some k
  | .associate _ _ _ c | .addTo _ _ c | .prepare _ _ c | .acceptPost _ c _ | .acceptClose c => some c
  | _ => none

/-- The worker has dequeued an accept completion, and has neither posted its replacement nor left
the `ClientIoAccept` case. -/
def accepting : WorkerPc → Bool
  | .testEnd _ op _ _ | .dispatch _ op _ _ => op.isAccept
  | .setsockopt .. | .allocate .. | .associate .. | .addTo .. | .prepare .. | .acceptPost ..
  | .acceptClose _ | .acceptMessage _ | .createSocket | .acceptEx | .setEvent => true
  | _ => false

end WorkerPc

/-- The operations of the kind `f` that are outstanding or whose completion is queued. -/
def Shared.load (y : Shared) (f : Operation → Bool) : ℕ :=
  y.outstanding.countP f + y.port.countP (Packet.holds f)

namespace Server

variable (s : Server)

/-- The operations of the client `a` that are outstanding or whose completion is queued. -/
def inFlight (a : Addr) : ℕ := s.y.load (Operation.ofClient a)

/-- The workers that hold the client `a`. -/
def holders (a : Addr) : ℕ := s.workers.countP fun pc => pc.client == some a

/-- The AcceptEx operations that are outstanding or whose completion is queued, and the workers that
handle one. -/
def accepts : ℕ := s.y.load Operation.isAccept + s.workers.countP WorkerPc.accepting

end Server

/-! ## What a keeper knows -/

namespace Shared

variable (y : Shared)

/-- The I/O context of `a` says that `o` has been posted. -/
def HasOp (a : Addr) (o : IoOperation) : Prop := ∃ io, y.g.io a = some io ∧ io.ioOperation = o

/-- A client context whose socket has it as its key. -/
structure IsClient (a : Addr) : Prop where
  live : y.g.live a = true
  ne : y.g.pCtxtListenSocket ≠ some a
  key : ∃ sd, (y.g.ctxt a).socket = some sd ∧ y.key sd = some a
  io : (y.g.io a).isSome

/-- The listening context, while its keeper can still post AcceptEx. -/
structure Listening (a : Addr) : Prop where
  live : y.g.live a = true
  listen : y.g.pCtxtListenSocket = some a
  key : ∃ sd, y.g.sdListen = some sd ∧ y.key sd = some a
  op : y.HasOp a .clientIoAccept
  hIocp : y.g.hIocp = true

/-- The context that `CtxtAllocate` has given for the accept socket `sd`. Without memory for the I/O
context it is a block already freed. -/
def Fresh (k : Addr) (sd : Option Socket) (c : Addr) : Prop :=
  (y.g.io k).bind PerIoContext.socketAccept = sd ∧ y.g.pCtxtListenSocket ≠ some c ∧
    (y.g.live c = true ∧ (y.g.ctxt c).socket = sd ∧ (y.g.io c).isSome ∨
      y.g.live c = false ∧ y.g.io c = none)

/-- The context of the accept socket after the association. -/
def Associated (k c : Addr) : Prop :=
  y.g.pCtxtListenSocket ≠ some c ∧
    (y.IsClient c ∧ (y.g.io k).bind PerIoContext.socketAccept = (y.g.ctxt c).socket ∨
      y.g.live c = false ∧ y.g.io c = none)

structure OpOk (op : Operation) : Prop where
  key : op.key = some op.overlapped
  serial : op.serial = (y.g.ctxt op.overlapped).serial
  call : match op.call with
    | .acceptEx => y.Listening op.overlapped
    | .post p => y.IsClient op.overlapped ∧ y.HasOp op.overlapped p.operation

def PacketOk : Packet → Prop
  | .quit => True
  | .completed op k _ _ => op.key = some k ∧ y.OpOk op

def PcOk : WorkerPc → Prop
  | .testEnd k op _ _ | .dispatch k op _ _ => op.key = some k ∧ y.OpOk op
  | .post k o p => o = k ∧ y.IsClient k ∧ y.HasOp k p.operation
  | .close k => y.IsClient k
  | .setsockopt k _ | .allocate k _ | .acceptMessage k => y.Listening k
  | .associate k _ sd c => y.Listening k ∧ y.Fresh k sd c
  | .addTo k _ c | .prepare k _ c => y.Listening k ∧ y.Associated k c
  | .acceptPost k c p => y.Listening k ∧ y.IsClient c ∧ y.HasOp c p.operation ∧
    (y.g.io k).bind PerIoContext.socketAccept = (y.g.ctxt c).socket
  | .acceptClose c => (∃ k, y.Listening k) ∧ y.IsClient c
  | .createSocket | .acceptEx => ∃ k, y.Listening k
  | _ => True

section Keeper

variable {y : Shared} {op : Operation} {a : Addr} {pc : WorkerPc}

theorem OpOk.isClient (h : y.OpOk op) (hc : op.client = some a) : a = op.overlapped ∧
    y.IsClient a ∧ ∃ p, op.call = .post p ∧ y.HasOp a p.operation := by
  obtain ⟨key, overlapped, serial, call⟩ := op
  cases call with
  | acceptEx => cases hc
  | post p =>
    obtain rfl := Option.some.inj hc
    obtain ⟨hcl, hop⟩ := h.call
    exact ⟨rfl, hcl, p, rfl, hop⟩

theorem OpOk.listening (h : y.OpOk op) (ha : op.isAccept = true) : y.Listening op.overlapped := by
  obtain ⟨key, overlapped, serial, call⟩ := op
  cases call with
  | acceptEx => exact h.call
  | post p => cases ha

/-- The I/O context tells a worker which kind of operation has completed. -/
theorem OpOk.ioOperation_iff (h : y.OpOk op) {io : PerIoContext}
    (hio : y.g.io op.overlapped = some io) :
    io.ioOperation = .clientIoAccept ↔ op.isAccept = true := by
  obtain ⟨key, overlapped, serial, call⟩ := op
  cases call with
  | acceptEx =>
    have hL : y.Listening overlapped := h.call
    obtain ⟨io', hio', hop⟩ := hL.op
    obtain rfl := Option.some.inj (hio'.symm.trans hio)
    exact iff_of_true hop rfl
  | post p =>
    obtain ⟨-, io', hio', hop⟩ := h.call
    obtain rfl := Option.some.inj (hio'.symm.trans hio)
    rw [hop]
    cases p <;> exact iff_of_false nofun nofun

theorem client_of_not_isAccept (h : ¬ op.isAccept = true) : op.client = some op.overlapped := by
  obtain ⟨key, overlapped, serial, call⟩ := op
  cases call with
  | acceptEx => exact absurd rfl h
  | post p => rfl

theorem client_of_isAccept (h : op.isAccept = true) : op.client = none := by
  obtain ⟨key, overlapped, serial, call⟩ := op
  cases call with
  | acceptEx => rfl
  | post p => cases h

/-- A worker holds a client that is live, or the block that `CtxtAllocate` has freed. -/
theorem PcOk.client (h : y.PcOk pc) (hc : pc.client = some a) :
    y.g.pCtxtListenSocket ≠ some a ∧ (y.g.live a = true ∨ pc.accepting = true) := by
  cases pc with
  | testEnd k op n ok | dispatch k op n ok =>
    obtain ⟨-, hcl, -⟩ := h.2.isClient hc
    exact ⟨hcl.ne, .inl hcl.live⟩
  | post k o p =>
    obtain rfl := Option.some.inj hc
    exact ⟨h.2.1.ne, .inl h.2.1.live⟩
  | close k =>
    obtain rfl := Option.some.inj hc
    exact ⟨IsClient.ne h, .inl (IsClient.live h)⟩
  | associate k n sd c =>
    obtain rfl := Option.some.inj hc
    exact ⟨h.2.2.1, .inr rfl⟩
  | addTo k n c | prepare k n c =>
    obtain rfl := Option.some.inj hc
    exact ⟨h.2.1, .inr rfl⟩
  | acceptPost k c p =>
    obtain rfl := Option.some.inj hc
    exact ⟨h.2.1.ne, .inr rfl⟩
  | acceptClose c =>
    obtain rfl := Option.some.inj hc
    exact ⟨h.2.ne, .inr rfl⟩
  | _ => cases hc

end Keeper

end Shared

/-! ## Frames -/

/-- `a` is in `g'` what it was in `g`. -/
structure Globals.Agree (g g' : Globals) (a : Addr) : Prop where
  live : g'.live a = g.live a
  serial : (g'.ctxt a).serial = (g.ctxt a).serial
  socket : (g'.ctxt a).socket = (g.ctxt a).socket
  io : g'.io a = g.io a

namespace Shared

/-- What the keeper of the client `c` (and, if `l`, of the listening context) leaves to the other
keepers. -/
structure Frame (y y' : Shared) (c : Option Addr) (l : Bool) : Prop where
  ne : ∀ a, c = some a → y.g.pCtxtListenSocket ≠ some a
  pCtxtListenSocket : y'.g.pCtxtListenSocket = y.g.pCtxtListenSocket
  sdListen : y'.g.sdListen = y.g.sdListen
  key : ∀ sd k, y.key sd = some k → y'.key sd = some k
  client : ∀ b, c ≠ some b → y.g.live b = true → y.g.pCtxtListenSocket ≠ some b →
    y.g.Agree y'.g b
  listen : l = false → y'.g.hIocp = y.g.hIocp ∧ ∀ b, c ≠ some b → y.g.Agree y'.g b

section Frame

variable {y y' : Shared} {c : Option Addr} {l : Bool} {a : Addr}

theorem HasOp.agree {o : IoOperation} (h : y.HasOp a o) (A : y.g.Agree y'.g a) : y'.HasOp a o := by
  obtain ⟨io, hio, ho⟩ := h
  exact ⟨io, A.io.trans hio, ho⟩

theorem IsClient.agree (h : y.IsClient a) (F : y.Frame y' c l) (hc : c ≠ some a) :
    y'.IsClient a ∧ y.g.Agree y'.g a := by
  have A := F.client a hc h.live h.ne
  obtain ⟨sd, hsd, hk⟩ := h.key
  refine ⟨⟨A.live.trans h.live, ?_, ⟨sd, A.socket.trans hsd, F.key _ _ hk⟩, ?_⟩, A⟩
  · rw [F.pCtxtListenSocket]
    exact h.ne
  · rw [A.io]
    exact h.io

theorem Listening.agree (h : y.Listening a) (F : y.Frame y' c false) :
    y'.Listening a ∧ y.g.Agree y'.g a := by
  obtain ⟨hI, hA⟩ := F.listen rfl
  have A := hA a fun e => F.ne a e h.listen
  obtain ⟨sd, hsd, hk⟩ := h.key
  exact ⟨⟨A.live.trans h.live, F.pCtxtListenSocket.trans h.listen,
    ⟨sd, F.sdListen.trans hsd, F.key _ _ hk⟩, h.op.agree A, hI.trans h.hIocp⟩, A⟩

/-- What an operation knows is kept by a step of another keeper. -/
theorem OpOk.frame {op : Operation} (h : y.OpOk op) (F : y.Frame y' c l)
    (hc : ∀ a, op.client = some a → c ≠ some a) (hl : op.isAccept = true → l = false) :
    y'.OpOk op := by
  obtain ⟨key, overlapped, serial, call⟩ := op
  cases call with
  | acceptEx =>
    obtain rfl := hl rfl
    obtain ⟨hL, A⟩ := Listening.agree h.call F
    exact ⟨h.key, h.serial.trans A.serial.symm, hL⟩
  | post p =>
    obtain ⟨hcl, hop⟩ := h.call
    obtain ⟨hcl', A⟩ := hcl.agree F (hc _ rfl)
    exact ⟨h.key, h.serial.trans A.serial.symm, hcl', hop.agree A⟩

theorem Fresh.frame {k sd c'} (h : y.Fresh k sd c') (hk : y.Listening k) (F : y.Frame y' c false)
    (hc : c ≠ some c') : y'.Fresh k sd c' := by
  obtain ⟨-, hA⟩ := F.listen rfl
  obtain ⟨-, Ak⟩ := hk.agree F
  have A := hA c' hc
  obtain ⟨hs, hne, h⟩ := h
  refine ⟨?_, ?_, ?_⟩
  · rw [Ak.io]
    exact hs
  · rw [F.pCtxtListenSocket]
    exact hne
  · rw [A.live, A.socket, A.io]
    exact h

theorem Associated.frame {k c'} (h : y.Associated k c') (hk : y.Listening k)
    (F : y.Frame y' c false) (hc : c ≠ some c') : y'.Associated k c' := by
  obtain ⟨-, hA⟩ := F.listen rfl
  obtain ⟨-, Ak⟩ := hk.agree F
  have A := hA c' hc
  obtain ⟨hne, h⟩ := h
  refine ⟨?_, ?_⟩
  · rw [F.pCtxtListenSocket]
    exact hne
  · rcases h with ⟨hcl, hs⟩ | ⟨hl, hio⟩
    · left
      refine ⟨(hcl.agree F hc).1, ?_⟩
      rw [Ak.io, A.socket]
      exact hs
    · right
      exact ⟨A.live.trans hl, A.io.trans hio⟩

/-- What a worker knows is kept by a step of another keeper. -/
theorem PcOk.frame {pc : WorkerPc} (h : y.PcOk pc) (F : y.Frame y' c l)
    (hc : ∀ a, pc.client = some a → c ≠ some a) (hl : pc.accepting = true → l = false) :
    y'.PcOk pc := by
  cases pc with
  | testEnd k op n ok => exact ⟨h.1, h.2.frame F hc hl⟩
  | dispatch k op n ok => exact ⟨h.1, h.2.frame F hc hl⟩
  | post k o p =>
    obtain ⟨hcl, A⟩ := h.2.1.agree F (hc _ rfl)
    exact ⟨h.1, hcl, h.2.2.agree A⟩
  | close k => exact (IsClient.agree h F (hc _ rfl)).1
  | setsockopt k n | allocate k n | acceptMessage k =>
    obtain rfl := hl rfl
    exact (Listening.agree h F).1
  | associate k n sd c' =>
    obtain rfl := hl rfl
    exact ⟨(h.1.agree F).1, h.2.frame h.1 F (hc _ rfl)⟩
  | addTo k n c' | prepare k n c' =>
    obtain rfl := hl rfl
    exact ⟨(h.1.agree F).1, h.2.frame h.1 F (hc _ rfl)⟩
  | acceptPost k c' p =>
    obtain rfl := hl rfl
    obtain ⟨hL, Ak⟩ := h.1.agree F
    obtain ⟨hcl, A⟩ := h.2.1.agree F (hc _ rfl)
    refine ⟨hL, hcl, h.2.2.1.agree A, ?_⟩
    rw [Ak.io, A.socket]
    exact h.2.2.2
  | acceptClose c' =>
    obtain rfl := hl rfl
    obtain ⟨⟨k, hk⟩, hcl⟩ := h
    exact ⟨⟨k, (hk.agree F).1⟩, (hcl.agree F (hc _ rfl)).1⟩
  | createSocket | acceptEx =>
    obtain rfl := hl rfl
    obtain ⟨k, hk⟩ := h
    exact ⟨k, (hk.agree F).1⟩
  | getStatus | message | setEvent | returned => trivial

/-- A step that writes to no context, seen by an operation and by a worker. -/
theorem OpOk.keep {op : Operation} (h : y.OpOk op) (F : y.Frame y' none false) : y'.OpOk op :=
  h.frame F nofun fun _ => rfl

theorem PcOk.keep {pc : WorkerPc} (h : y.PcOk pc) (F : y.Frame y' none false) : y'.PcOk pc :=
  h.frame F nofun fun _ => rfl

end Frame

end Shared

/-! ## The numbers of the contexts -/

/-- The live contexts have different numbers, and `CloseClient` was called once on each context that
it was called on, which is no longer live. -/
structure Globals.Numbered (g : Globals) : Prop where
  lt : ∀ a, g.live a = true → (g.ctxt a).serial < g.serial
  inj : ∀ a b, g.live a = true → g.live b = true →
    (g.ctxt a).serial = (g.ctxt b).serial → a = b
  nodup : g.closeCalls.Nodup
  closed : ∀ n ∈ g.closeCalls, n < g.serial ∧ ∀ a, g.live a = true → (g.ctxt a).serial ≠ n

section Numbered

variable {g g' : Globals} {a : Addr} {c : Option Addr}

theorem Globals.Numbered.shrink (h : g.Numbered) (K : Keeps g g' c)
    (hl : ∀ b, g'.live b = true → g.live b = true) (hc : g'.closeCalls = g.closeCalls) :
    g'.Numbered where
  lt b hb := by
    rw [K.serialAt, K.serial]
    exact h.lt b (hl b hb)
  inj b b' hb hb' e := by
    rw [K.serialAt, K.serialAt] at e
    exact h.inj b b' (hl b hb) (hl b' hb') e
  nodup := hc ▸ h.nodup
  closed n hn := by
    rw [hc] at hn
    obtain ⟨hlt, hne⟩ := h.closed n hn
    refine ⟨K.serial ▸ hlt, fun b hb => ?_⟩
    rw [K.serialAt]
    exact hne b (hl b hb)

theorem Globals.Numbered.within (h : g.Numbered) (W : Within g g' c) : g'.Numbered :=
  h.shrink W.toKeeps (fun b hb => by rwa [W.live] at hb) W.closeCalls

theorem Globals.Numbered.close (h : g.Numbered) (ha : g.live a = true)
    (hc : closeClient a g = some g') : g'.Numbered := by
  obtain ⟨K, hlive, -, hcalls⟩ := closeClient_spec hc
  have hl : ∀ b, g'.live b = true → b ≠ a ∧ g.live b = true := by
    intro b hb
    rw [hlive, Function.update_apply] at hb
    split_ifs at hb with e
    exact ⟨e, hb⟩
  refine ⟨fun b hb => ?_, fun b b' hb hb' e => ?_, ?_, fun n hn => ?_⟩
  · rw [K.serialAt, K.serial]
    exact h.lt b (hl b hb).2
  · rw [K.serialAt, K.serialAt] at e
    exact h.inj b b' (hl b hb).2 (hl b' hb').2 e
  · -- a context that is live has not been closed before
    rw [hcalls, List.nodup_append]
    refine ⟨h.nodup, List.nodup_singleton _, fun n hn m hm => ?_⟩
    obtain rfl := List.mem_singleton.mp hm
    exact fun e => (h.closed n hn).2 a ha e.symm
  · rw [K.serial]
    rw [hcalls, List.mem_append, List.mem_singleton] at hn
    rcases hn with hn | rfl
    · refine ⟨(h.closed n hn).1, fun b hb => ?_⟩
      rw [K.serialAt]
      exact (h.closed n hn).2 b (hl b hb).2
    · refine ⟨h.lt a ha, fun b hb e => (hl b hb).1 ?_⟩
      rw [K.serialAt] at e
      exact h.inj b a (hl b hb).2 ha e

/-- What `CtxtAllocate` does to the contexts. -/
theorem ctxtAllocate_spec {sd : Option Socket} {o : IoOperation} {x : Allocation} {a : Addr}
    (h : (ctxtAllocate sd o x g).2 = some a) :
    (∀ b, b ≠ a → g.Agree (ctxtAllocate sd o x g).1 b) ∧
    ((ctxtAllocate sd o x g).1.ctxt a).serial = g.serial ∧
    (x = .ok a ∧ (ctxtAllocate sd o x g).1.live a = true ∧
        ((ctxtAllocate sd o x g).1.ctxt a).socket = sd ∧
        (ctxtAllocate sd o x g).1.io a = some (.initial o) ∨
      x = .noIoContext a ∧ (ctxtAllocate sd o x g).1.live a = false ∧
        (ctxtAllocate sd o x g).1.io a = none) := by
  cases x with
  | ok a' =>
    obtain rfl := Option.some.inj h
    refine ⟨fun b hb => ?_, ?_, .inl ⟨rfl, ?_, ?_, ?_⟩⟩
    · constructor <;> simp [ctxtAllocate, Globals.io, hb]
    all_goals simp [ctxtAllocate, Globals.io]
  | noSocketContext => cases h
  | noIoContext a' =>
    obtain rfl := Option.some.inj h
    refine ⟨fun b hb => ?_, ?_, .inr ⟨rfl, ?_, ?_⟩⟩
    · constructor <;> simp [ctxtAllocate, Globals.io, hb]
    all_goals simp [ctxtAllocate, Globals.io]

/-- The globals that `CtxtAllocate` does not write. -/
theorem ctxtAllocate_globals (sd : Option Socket) (o : IoOperation) (x : Allocation) (g : Globals) :
    (ctxtAllocate sd o x g).1.pCtxtListenSocket = g.pCtxtListenSocket ∧
    (ctxtAllocate sd o x g).1.sdListen = g.sdListen ∧
    (ctxtAllocate sd o x g).1.hIocp = g.hIocp ∧
    (ctxtAllocate sd o x g).1.bEndServer = g.bEndServer := by
  cases x <;> exact ⟨rfl, rfl, rfl, rfl⟩

theorem Globals.Numbered.allocate (h : g.Numbered) {sd : Option Socket} {o : IoOperation}
    {x : Allocation} {a : Addr} (hx : (ctxtAllocate sd o x g).2 = some a) :
    (ctxtAllocate sd o x g).1.Numbered := by
  obtain ⟨hne, hser, -⟩ := ctxtAllocate_spec hx
  have hg : (ctxtAllocate sd o x g).1.serial = g.serial + 1 ∧
      (ctxtAllocate sd o x g).1.closeCalls = g.closeCalls := by
    cases x with
    | noSocketContext => cases hx
    | ok a' => exact ⟨rfl, rfl⟩
    | noIoContext a' => exact ⟨rfl, rfl⟩
  -- the new context has a number that no other has, or had when it was closed
  have hold : ∀ b, (ctxtAllocate sd o x g).1.live b = true → b ≠ a →
      ((ctxtAllocate sd o x g).1.ctxt b).serial = (g.ctxt b).serial ∧ g.live b = true :=
    fun b hb e => ⟨(hne b e).serial, (hne b e).live ▸ hb⟩
  refine ⟨fun b hb => ?_, fun b b' hb hb' e => ?_, hg.2 ▸ h.nodup, fun n hn => ?_⟩
  · rw [hg.1]
    by_cases e : b = a
    · rw [e, hser]
      omega
    · obtain ⟨hs, hl⟩ := hold b hb e
      have := h.lt b hl
      omega
  · by_cases e₁ : b = a <;> by_cases e₂ : b' = a
    · rw [e₁, e₂]
    · obtain ⟨hs, hl⟩ := hold b' hb' e₂
      have := h.lt b' hl
      rw [e₁, hser] at e
      omega
    · obtain ⟨hs, hl⟩ := hold b hb e₁
      have := h.lt b hl
      rw [e₂, hser] at e
      omega
    · obtain ⟨hs, hl⟩ := hold b hb e₁
      obtain ⟨hs', hl'⟩ := hold b' hb' e₂
      exact h.inj b b' hl hl' (hs.symm.trans (e.trans hs'))
  · rw [hg.2] at hn
    obtain ⟨hlt, hcl⟩ := h.closed n hn
    refine ⟨by omega, fun b hb => ?_⟩
    by_cases e : b = a
    · rw [e, hser]
      omega
    · obtain ⟨hs, hl⟩ := hold b hb e
      rw [hs]
      exact hcl b hl

end Numbered

end SelfStudy.Iocp
