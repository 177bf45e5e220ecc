import SelfStudy.TestIocp.Server
import SelfStudy.Lib.Count
import SelfStudy.Lib.Custody

/-!
# What a step does to the objects

An `OverlappedPerIo` is with the kernel, in the hands of a thread, or deleted, and a socket is in an
object or in the hands of the thread that is about to make one. `Effect` says of a step where it
moves them and, by `forgets`, which object it leaves behind: one lemma for `PostAcceptEx`, one for a
worker and one for a completion. What the other threads know survives the step (`Effect.pcOk`), and
sockets and objects are released in pairs (`Effect.released`).
-/

namespace SelfStudy.TestIocp

open Lib

/-! ## The places -/

def PostPc.holds : PostPc → List ℕ
  | .acceptEx o => [o]
  | _ => []

def PostPc.sockets : PostPc → List ℕ
  | .new s => [s]
  | _ => []

/-- The objects in the hands of a worker. -/
def WorkerPc.holds : WorkerPc → List ℕ
  | .failed p | .drop p | .dispatch p => [p.overlapped]
  | .post p q => p.overlapped :: q.holds
  | .setsockopt o | .associate o | .wsaRecv o | .wsaSend o => [o]
  | .getStatus | .returned => []

/-- The sockets in the hands of a worker that are in no object yet. -/
def WorkerPc.sockets : WorkerPc → List ℕ
  | .post _ q => q.sockets
  | _ => []

/-- The socket `n` and the object `o` are released together, the socket first. -/
def InPairs (log : List Release) (n o : ℕ) : Prop :=
  log.count (.closesocket n) = log.count (.delete o) ∧
    (.delete o ∈ log → List.Sublist [.closesocket n, .delete o] log)

namespace Shared

variable (y : Shared)

/-- The operations with the object `o` that are outstanding or whose completion is queued. -/
def load (o : ℕ) : ℕ :=
  y.outstanding.countP (·.overlapped == o) + y.port.countP (·.overlapped == o)

/-- The object `o` is with the kernel, deleted, or one of `hs`. -/
def kept (hs : List ℕ) (o : ℕ) : ℕ := y.load o + y.log.count (.delete o) + hs.count o

/-- The socket `s` is in an object, or one of `ss`. -/
def owned (ss : List ℕ) (s : ℕ) : ℕ := y.objects.countP (·.socket == s) + ss.count s

/-- The object `o` says that it has been posted with the operation `t`. -/
def TypeIs (o : ℕ) (t : IoType) : Prop :=
  ∃ overlp, y.objects[o]? = some overlp ∧ overlp.type = t

/-- The object `o` is as it was. -/
def Keeps (y' : Shared) (o : ℕ) : Prop :=
  ∀ overlp, y.objects[o]? = some overlp → y'.objects[o]? = some overlp

structure OpOk (op : Operation) : Prop where
  type : y.TypeIs op.overlapped op.call.type
  socket : op.call = .acceptEx → op.socket = listenSocket

def PacketOk (p : Packet) : Prop := y.TypeIs p.overlapped p.call.type

/-- An object in `PostAcceptEx` is the new one. -/
def PostOk : PostPc → Prop
  | .acceptEx o => y.TypeIs o .ioAccept
  | _ => True

/-- The objects in the hands of a worker have the type of the branch it is in. -/
def PcOk : WorkerPc → Prop
  | .failed p | .drop p | .dispatch p => y.PacketOk p
  | .post p q => p.call = .acceptEx ∧ y.PacketOk p ∧ y.PostOk q
  | .setsockopt o => y.TypeIs o .ioAccept
  | .associate o | .wsaRecv o => y.TypeIs o .ioRecv
  | .wsaSend o => y.TypeIs o .ioSend
  | .getStatus | .returned => True

/-- Sockets and objects are released in pairs, and only sockets that an object has. -/
structure Released : Prop where
  inPairs : ∀ (o : ℕ) overlp, y.objects[o]? = some overlp → InPairs y.log overlp.socket o
  closed : ∀ n, .closesocket n ∈ y.log → ∃ (o : ℕ) (overlp : OverlappedPerIo),
    y.objects[o]? = some overlp ∧ overlp.socket = n

end Shared

/-- No operation is posted with the types `IO_CONNECT` and `IO_DISCONNECT`. -/
theorem Call.type_posted (c : Call) : ¬ (c.type = .ioConnect ∨ c.type = .ioDisconnect) := by
  cases c <;> decide

/-- A completion writes at most the `buffer` of its object. -/
theorem Operation.finish_spec {op : Operation} {r : Completion}
    {x : (OverlappedPerIo → OverlappedPerIo) × Packet} (h : op.finish r = some x) :
    (∀ overlp, (x.1 overlp).socket = overlp.socket ∧ (x.1 overlp).type = overlp.type) ∧
      x.2.overlapped = op.overlapped ∧ x.2.call = op.call := by
  cases r with
  | accepted addresses | received bytes | sent n =>
    obtain ⟨-, h⟩ := Option.ite_none_right_eq_some.mp h
    obtain rfl := Option.some.inj h
    exact ⟨fun _ => ⟨rfl, rfl⟩, rfl, rfl⟩
  | failed code =>
    obtain rfl := Option.some.inj h
    exact ⟨fun _ => ⟨rfl, rfl⟩, rfl, rfl⟩

theorem InPairs.absent {log : List Release} {n o : ℕ} (hn : .closesocket n ∉ log)
    (ho : .delete o ∉ log) : InPairs log n o :=
  ⟨by rw [List.count_eq_zero_of_not_mem hn, List.count_eq_zero_of_not_mem ho], fun h => absurd h ho⟩

theorem InPairs.append {log : List Release} {n o m a : ℕ} (h : InPairs log n o)
    (hiff : m = n ↔ a = o) : InPairs (log ++ [.closesocket m, .delete a]) n o := by
  obtain ⟨hcount, hsub⟩ := h
  constructor
  · simp only [List.count_append, List.count_cons, List.count_nil, beq_iff_eq,
      Release.closesocket.injEq, Release.delete.injEq, reduceCtorEq, if_false, hiff, hcount]
    omega
  · intro hmem
    by_cases ha : a = o
    · rw [ha, hiff.mpr ha]
      exact List.sublist_append_right _ _
    · have hold : .delete o ∈ log := by
        simpa [Ne.symm ha] using hmem
      exact (hsub hold).trans (List.sublist_append_left _ _)

section Types

variable {y : Shared} {o : ℕ} {overlp : OverlappedPerIo} {p : Packet}

theorem Shared.TypeIs.eq {t : IoType} (h : y.TypeIs o t) (hget : y.objects[o]? = some overlp) :
    overlp.type = t := by
  obtain ⟨overlp', hget', ht⟩ := h
  rwa [Option.some.inj (hget.symm.trans hget')]

theorem Shared.TypeIs.modify {t : IoType} (h : y.TypeIs o t)
    {f : OverlappedPerIo → OverlappedPerIo} (hf : ∀ overlp, (f overlp).type = overlp.type) {a : ℕ} :
    (y.modify a f).TypeIs o t := by
  obtain ⟨overlp, hget, rfl⟩ := h
  refine ⟨if a = o then f overlp else overlp, ?_, ?_⟩
  · show (y.objects.modify a f)[o]? = _
    rw [List.getElem?_modify, hget]
    rfl
  · split_ifs
    · exact hf overlp
    · rfl

/-- The type of the object tells which call has completed. -/
theorem Shared.PacketOk.call_eq (h : y.PacketOk p) (hget : y.objects[p.overlapped]? = some overlp)
    {c : Call} (ht : overlp.type = c.type) : p.call = c := by
  have heq : p.call.type = c.type := (TypeIs.eq h hget).symm.trans ht
  revert heq
  cases p.call <;> cases c <;> decide

end Types

/-! ## What is left behind -/

/-- The object that a worker leaves behind with its step: when it returns from a failed completion,
when a send has completed, and when a post has failed. -/
def WorkerPc.forgets : WorkerPc → Answer → Option ℕ
  | .failed p, _ => if disconnected p then none else some p.overlapped
  | .dispatch p, _ => if p.call = .wsaSend ∧ p.bytesTrans ≠ 0 then some p.overlapped else none
  | .wsaRecv o, .overlapped r | .wsaSend o, .overlapped r => if r.starts then none else some o
  | _, _ => none

/-- The completion of an operation whose socket is not associated is lost. -/
def Shared.forgets (y : Shared) (j : ℕ) : Option ℕ :=
  y.outstanding[j]?.bind fun op => if y.associated op.socket then none else some op.overlapped

/-! ## The effect of a step -/

/-- What a step does to the objects `hs` and the sockets `ss` that its thread has in hand, and to all
others. -/
structure Effect (y : Shared) (hs ss : List ℕ) (y' : Shared) (hs' ss' : List ℕ)
    (lost : Option ℕ) : Prop where
  kept : Moves y.objects.length y'.objects.length (y.kept hs) (y'.kept hs') lost
  owned : Moves y.sockets y'.sockets (y.owned ss) (y'.owned ss') none
  objects : ∀ o overlp, y.objects[o]? = some overlp → ∃ overlp', y'.objects[o]? = some overlp' ∧
    overlp'.socket = overlp.socket ∧ (o ∉ hs → overlp'.type = overlp.type)
  made : ∀ o overlp', y'.objects[o]? = some overlp' →
    (∃ overlp, y.objects[o]? = some overlp ∧ overlp.socket = overlp'.socket) ∨
      o = y.objects.length ∧ overlp'.socket ∈ ss ∧ y'.log = y.log
  outstanding : ∀ op ∈ y'.outstanding, op ∈ y.outstanding ∨ y'.OpOk op
  port : ∀ p ∈ y'.port, p ∈ y.port ∨ y'.PacketOk p
  log : y'.log = y.log ∨ ∃ o overlp, y.objects[o]? = some overlp ∧
    y'.log = y.log ++ [.closesocket overlp.socket, .delete o]
  portOpen : y'.portOpen = y.portOpen
  associated : ∀ s, y.associated s = true → y'.associated s = true

section Effect

variable {y y' : Shared} {hs hs' ss ss' : List ℕ} {lost : Option ℕ} {o : ℕ} {ans : Answer}

/-- An object that its thread does not have in hand keeps its type. -/
theorem Effect.typeIs (e : Effect y hs ss y' hs' ss' lost) (ho : o ∉ hs) {t : IoType}
    (h : y.TypeIs o t) : y'.TypeIs o t := by
  obtain ⟨overlp, hget, rfl⟩ := h
  obtain ⟨overlp', hget', -, ht⟩ := e.objects o overlp hget
  exact ⟨overlp', hget', ht ho⟩

/-- A step with more objects in hand. -/
theorem Effect.cons (e : Effect y hs ss y' hs' ss' lost) (a : ℕ) :
    Effect y (a :: hs) ss y' (a :: hs') ss' lost where
  kept := e.kept.of_part fun o => by
    simp only [Shared.kept, List.count_cons]
    omega
  owned := e.owned
  objects o overlp h := by
    obtain ⟨overlp', hget, hs', ht⟩ := e.objects o overlp h
    exact ⟨overlp', hget, hs', fun ho => ht fun hmem => ho (List.mem_cons_of_mem a hmem)⟩
  made := e.made
  outstanding := e.outstanding
  port := e.port
  log := e.log
  portOpen := e.portOpen
  associated := e.associated

/-- The object `o` may be written to; no object is made or deleted, and one may be left behind. -/
theorem Effect.write {f : OverlappedPerIo → OverlappedPerIo}
    (hobj : y'.objects = y.objects.modify o f) (hf : ∀ overlp, (f overlp).socket = overlp.socket)
    (ht : o ∈ hs ∨ ∀ overlp, (f overlp).type = overlp.type) (hsock : y'.sockets = y.sockets)
    (hout : ∀ op ∈ y'.outstanding, op ∈ y.outstanding ∨ y'.OpOk op)
    (hport : ∀ p ∈ y'.port, p ∈ y.port ∨ y'.PacketOk p) (hlog : y'.log = y.log)
    (hopen : y'.portOpen = y.portOpen)
    (hass : ∀ s, y.associated s = true → y'.associated s = true)
    (hkept : ∀ o, y'.load o + hs'.count o + (if lost = some o then 1 else 0) =
      y.load o + hs.count o) : Effect y hs ss y' hs' ss lost where
  kept := by
    have hlen : y'.objects.length = y.objects.length := by rw [hobj, List.length_modify]
    refine ⟨Nat.le_of_eq hlen.symm, fun o => ?_⟩
    have := hkept o
    have hnew : ¬ (y.objects.length ≤ o ∧ o < y'.objects.length) := by omega
    simp only [Shared.kept, hlog, if_neg hnew]
    omega
  owned := by
    have howned : y'.owned ss = y.owned ss := by
      funext s
      have hcount := congrArg (List.countP (· == s)) (map_modify (g := OverlappedPerIo.socket) hf
        y.objects o)
      simp only [List.countP_map] at hcount
      simp only [Shared.owned, hobj]
      exact congrArg (· + ss.count s) hcount
    rw [hsock, howned]
    exact .refl _ _
  objects a overlp h := by
    refine ⟨if o = a then f overlp else overlp, by rw [hobj, List.getElem?_modify, h]; rfl, ?_, ?_⟩
    · split_ifs
      · exact hf overlp
      · rfl
    · intro ha
      split_ifs with hoa
      · exact ht.elim (fun hmem => absurd (hoa ▸ hmem) ha) fun ht => ht overlp
      · rfl
  made a overlp' h := by
    rw [hobj, List.getElem?_modify] at h
    obtain ⟨overlp, hget, rfl⟩ := Option.map_eq_some_iff.mp h
    refine .inl ⟨overlp, hget, ?_⟩
    split_ifs
    · exact (hf overlp).symm
    · rfl
  outstanding := hout
  port := hport
  log := .inl hlog
  portOpen := hopen
  associated := hass

/-- No object is written to. -/
theorem Effect.quiet (hobj : y'.objects = y.objects) (hsock : y'.sockets = y.sockets)
    (hout : ∀ op ∈ y'.outstanding, op ∈ y.outstanding ∨ y'.OpOk op)
    (hport : ∀ p ∈ y'.port, p ∈ y.port) (hlog : y'.log = y.log) (hopen : y'.portOpen = y.portOpen)
    (hass : ∀ s, y.associated s = true → y'.associated s = true)
    (hkept : ∀ o, y'.load o + hs'.count o + (if lost = some o then 1 else 0) =
      y.load o + hs.count o) : Effect y hs ss y' hs' ss lost :=
  .write (o := 0) (f := id) (hobj.trans (List.modify_id 0 y.objects).symm) (fun _ => rfl)
    (.inr fun _ => rfl) hsock hout (fun p hp => .inl (hport p hp)) hlog hopen hass hkept

/-- Only the hands of the thread change, and it may leave an object behind. -/
theorem Effect.stay (h : ∀ o, hs'.count o + (if lost = some o then 1 else 0) = hs.count o) :
    Effect y hs ss y hs' ss lost := by
  refine .quiet rfl rfl (fun _ => .inl) (fun _ => id) rfl rfl (fun _ => id) fun o => ?_
  have := h o
  omega

/-- A packet is taken from the port. -/
theorem Effect.dequeue {j : ℕ} {p : Packet} (h : y.port[j]? = some p) :
    Effect y [] ss { y with port := y.port.eraseIdx j } [p.overlapped] ss none := by
  refine .quiet rfl rfl (fun _ => .inl) (fun p hp => List.mem_of_mem_eraseIdx hp) rfl rfl
    (fun _ => id) fun o => ?_
  have := countP_eraseIdx_add (fun p : Packet => p.overlapped == o) h
  simp only [beq_iff_eq] at this
  simp only [Shared.load, List.count_singleton, List.count_nil, beq_iff_eq, reduceCtorEq, if_false]
  omega

/-- An overlapped call, which leaves its object behind when it fails. -/
theorem Effect.start {call : Call} {socket : ℕ} {w : WsaBuf} {r : Iocp.CallResult}
    (ht : y.TypeIs o call.type) (hs : call = .acceptEx → socket = listenSocket) :
    Effect y [o] ss (y.start o call socket w r) [] ss (if r.starts then none else some o) := by
  cases hr : r.starts with
  | false =>
    rw [Shared.start, hr]
    refine .stay fun a => ?_
    simp [List.count_singleton]
  | true =>
    rw [Shared.start, hr]
    refine .quiet rfl rfl (fun op hop => ?_) (fun _ => id) rfl rfl (fun _ => id) fun a => ?_
    · rcases List.mem_append.mp hop with hop | hop
      · exact .inl hop
      · obtain rfl := List.mem_singleton.mp hop
        exact .inr ⟨ht, hs⟩
    · simp only [Shared.load, List.countP_append, List.countP_singleton, List.count_singleton,
        List.count_nil, beq_iff_eq, if_true, reduceCtorEq, if_false]
      omega

/-- `PostAcceptEx` writes to no object that there is. -/
theorem PostStep.keeps {q : PostPc} {q' : Option PostPc} (h : PostStep y q ans y' q') (o : ℕ) :
    y.Keeps y' o := by
  intro overlp hget
  cases h with
  | socket | noSocket | started | retry => exact hget
  | made =>
    show (y.objects ++ _)[o]? = _
    rw [List.getElem?_append_left (List.getElem?_eq_some_iff.mp hget).1]
    exact hget

/-- **`PostAcceptEx` leaves nothing behind.** -/
theorem PostStep.effect {q : PostPc} {q' : Option PostPc} (h : PostStep y q ans y' q')
    (hok : y.PostOk q) : Effect y q.holds q.sockets y' (q'.elim [] PostPc.holds)
      (q'.elim [] PostPc.sockets) none := by
  cases h with
  | socket =>
    refine ⟨.refl _ _, ⟨Nat.le_succ _, fun s => ?_⟩, fun o overlp h => ⟨overlp, h, rfl, fun _ => rfl⟩,
      fun o overlp h => .inl ⟨overlp, h, rfl⟩, fun _ => .inl, fun _ => .inl, .inl rfl, rfl,
      fun _ => id⟩
    simp only [Shared.owned, PostPc.sockets, Option.elim, List.count_singleton, List.count_nil,
      beq_iff_eq, reduceCtorEq, if_false]
    split_ifs <;> omega
  | noSocket => exact .stay fun o => rfl
  | @made s =>
    refine ⟨⟨?_, fun o => ?_⟩, ⟨Nat.le_refl _, fun n => ?_⟩, fun o overlp h => ?_,
      fun o overlp h => ?_, fun _ => .inl, fun _ => .inl, .inl rfl, rfl, fun _ => id⟩
    · simp
    · simp only [Shared.kept, Shared.load, PostPc.holds, Option.elim, List.count_singleton,
        List.count_nil, List.length_append, List.length_singleton, beq_iff_eq, reduceCtorEq, if_false]
      split_ifs <;> omega
    · simp only [Shared.owned, PostPc.sockets, Option.elim, List.countP_append,
        List.countP_singleton, List.count_singleton, List.count_nil, OverlappedPerIo.initial,
        beq_iff_eq, reduceCtorEq, if_false]
      split_ifs <;> omega
    · exact ⟨overlp, PostStep.made.keeps o overlp h, rfl, fun _ => rfl⟩
    · rw [getElem?_snoc] at h
      split_ifs at h with ho
      · exact .inr ⟨ho, Option.some.inj h ▸ List.mem_singleton_self s, rfl⟩
      · exact .inl ⟨overlp, h, rfl⟩
  | @started o r hr =>
    have e : Effect y [o] [] (y.start o .acceptEx listenSocket ⟨.buffer, 0⟩ r) [] []
        (if r.starts then none else some o) := .start hok fun _ => rfl
    rwa [Shared.start, if_pos hr, if_pos hr] at e
  | retry hr => exact .stay fun o => rfl

/-- **The effect of a worker's step.** -/
theorem WorkerStep.effect {pc pc' : WorkerPc} (h : WorkerStep y pc ans y' pc') (hok : y.PcOk pc) :
    Effect y pc.holds pc.sockets y' pc'.holds pc'.sockets (pc.forgets ans) := by
  cases h with
  | dequeued ho h he | dequeuedFailed ho h he => exact .dequeue h
  | abandoned ho => exact .stay fun o => rfl
  | @disconnected p h =>
    refine .stay fun o => ?_
    simp [WorkerPc.forgets, WorkerPc.holds, h]
  | @gaveUp p h =>
    refine .stay fun o => ?_
    simp [WorkerPc.forgets, WorkerPc.holds, h, List.count_singleton]
  | @dropped p overlp h =>
    refine ⟨⟨Nat.le_refl _, fun o => ?_⟩, .refl _ _,
      fun o overlp h => ⟨overlp, h, rfl, fun _ => rfl⟩, fun o overlp h => .inl ⟨overlp, h, rfl⟩,
      fun _ => .inl, fun _ => .inl, .inr ⟨p.overlapped, overlp, h, rfl⟩, rfl, fun _ => id⟩
    simp only [Shared.kept, Shared.load, WorkerPc.holds, WorkerPc.forgets, List.count_append,
      List.count_cons, List.count_nil, beq_iff_eq, Release.delete.injEq, reduceCtorEq, if_false]
    split_ifs <;> omega
  | @accepted p overlp h ht =>
    have hcall := Shared.PacketOk.call_eq hok h (c := .acceptEx) ht
    refine .stay fun o => ?_
    simp [WorkerPc.forgets, WorkerPc.holds, PostPc.holds, hcall]
  | @empty p overlp h ht hn =>
    refine .stay fun o => ?_
    simp [WorkerPc.forgets, WorkerPc.holds, hn]
  | @received p overlp h ht hn =>
    have hcall := Shared.PacketOk.call_eq hok h (c := .wsaRecv) ht
    refine .write (o := p.overlapped) (f := OverlappedPerIo.forSend) rfl (fun _ => rfl)
      (.inl (List.mem_singleton_self _)) rfl (fun _ => .inl) (fun _ => .inl) rfl rfl (fun _ => id)
      fun o => ?_
    simp [WorkerPc.forgets, WorkerPc.holds, hcall, Shared.load]
  | @sent p overlp h ht hn =>
    have hcall := Shared.PacketOk.call_eq hok h (c := .wsaSend) ht
    refine .stay fun o => ?_
    simp [WorkerPc.forgets, WorkerPc.holds, hcall, hn, List.count_singleton]
  | @unknown p overlp h ht =>
    rw [Shared.TypeIs.eq hok h] at ht
    exact absurd ht (Call.type_posted p.call)
  | posting h => exact (h.effect hok.2.2).cons _
  | posted h => exact (h.effect hok.2.2).cons _
  | @prepared o ok =>
    exact .write (o := o) (f := OverlappedPerIo.forRecv) rfl (fun _ => rfl)
      (.inl (List.mem_singleton_self _)) rfl (fun _ => .inl) (fun _ => .inl) rfl rfl (fun _ => id)
      fun o => rfl
  | @associated o overlp h =>
    refine .quiet rfl rfl (fun _ => .inl) (fun _ => id) rfl rfl (fun s hs => ?_) fun o => rfl
    show Function.update y.associated overlp.socket true s = true
    rw [Function.update_apply, hs, ite_self]
  | notAssociated h => exact .stay fun o => rfl
  | receiving h => exact .start hok nofun
  | sending h => exact .start hok nofun

theorem PostStep.typeIs {q : PostPc} {q' : Option PostPc} (h : PostStep y q ans y' q') {t : IoType}
    (ht : y.TypeIs o t) : y'.TypeIs o t := by
  obtain ⟨overlp, hget, hty⟩ := ht
  exact ⟨overlp, h.keeps o overlp hget, hty⟩

theorem PostStep.postOk {q q' : PostPc} (h : PostStep y q ans y' (some q')) (hok : y.PostOk q) :
    y'.PostOk q' := by
  cases h with
  | socket => trivial
  | @made s => exact ⟨.initial s, by simp, rfl⟩
  | retry => exact hok

/-- **The next branch of a worker** is that of the type of its object. -/
theorem WorkerStep.pcOk {pc pc' : WorkerPc} (h : WorkerStep y pc ans y' pc') (hok : y.PcOk pc)
    (hport : ∀ p ∈ y.port, y.PacketOk p) : y'.PcOk pc' := by
  cases h with
  | dequeued ho h he | dequeuedFailed ho h he => exact hport _ (List.mem_of_getElem? h)
  | disconnected h => exact hok
  | empty h ht hn => exact hok
  | abandoned | gaveUp | dropped | sent | unknown | receiving | sending => trivial
  | accepted h ht => exact ⟨Shared.PacketOk.call_eq hok h (c := .acceptEx) ht, hok, trivial⟩
  | @received p overlp h ht hn => exact ⟨overlp.forSend, by simp [Shared.modify, h], rfl⟩
  | posting h =>
    obtain ⟨hcall, hp, hq⟩ := hok
    exact ⟨hcall, h.typeIs hp, h.postOk hq⟩
  | posted h =>
    obtain ⟨hcall, hp, hq⟩ := hok
    have ht := h.typeIs hp
    rwa [hcall] at ht
  | @prepared o ok =>
    obtain ⟨overlp, hget, -⟩ := hok
    exact ⟨overlp.forRecv, by simp [Shared.modify, hget], rfl⟩
  | associated h | notAssociated h => exact hok

/-- **The effect of a completion.** -/
theorem Shared.complete_effect {j : ℕ} {r : Completion} (h : y.complete j r = some y')
    (hok : ∀ op ∈ y.outstanding, y.OpOk op) : Effect y [] [] y' [] [] (y.forgets j) := by
  obtain ⟨op, f, p, hop, hfin, rfl⟩ := Shared.complete_cases h
  obtain ⟨hf, hp⟩ := Operation.finish_spec hfin
  simp only at hf hp
  refine .write rfl (fun overlp => (hf overlp).1) (.inr fun overlp => (hf overlp).2) rfl
    (fun op h => .inl (List.mem_of_mem_eraseIdx h)) (fun p' h => ?_) rfl rfl (fun _ => id) fun o => ?_
  · by_cases ha : y.associated op.socket = true
    · simp only [if_pos ha] at h
      rcases List.mem_append.mp h with h | h
      · exact .inl h
      · obtain rfl := List.mem_singleton.mp h
        have ht := (hok op (List.mem_of_getElem? hop)).type
        rw [← hp.1, ← hp.2] at ht
        exact .inr (ht.modify fun overlp => (hf overlp).2)
    · simp only [if_neg ha] at h
      exact .inl h
  · have hforgets : y.forgets j = if y.associated op.socket then none else some op.overlapped := by
      rw [Shared.forgets, hop]; rfl
    have hcount := countP_eraseIdx_add (fun op : Operation => op.overlapped == o) hop
    simp only [beq_iff_eq] at hcount
    rw [hforgets]
    by_cases ha : y.associated op.socket = true
    · simp only [Shared.load, ha, if_true, List.countP_append, List.countP_singleton, beq_iff_eq,
        hp.1, reduceCtorEq, if_false]
      omega
    · simp only [Shared.load, if_neg ha, Option.some.injEq]
      omega

theorem Effect.postOk (e : Effect y hs ss y' hs' ss' lost) {q : PostPc}
    (hd : ∀ o ∈ q.holds, o ∉ hs) (h : y.PostOk q) : y'.PostOk q := by
  cases q with
  | wsaSocket | new s => trivial
  | acceptEx o => exact e.typeIs (hd o (List.mem_singleton_self o)) h

/-- The threads that have none of the objects `hs` do not notice the step. -/
theorem Effect.pcOk (e : Effect y hs ss y' hs' ss' lost) {pc : WorkerPc}
    (hd : ∀ o ∈ pc.holds, o ∉ hs) (h : y.PcOk pc) : y'.PcOk pc := by
  cases pc with
  | getStatus | returned => trivial
  | post p q =>
    obtain ⟨hcall, hp, hq⟩ := h
    exact ⟨hcall, e.typeIs (hd _ List.mem_cons_self) hp,
      e.postOk (fun o ho => hd o (List.mem_cons_of_mem _ ho)) hq⟩
  | failed p | drop p | dispatch p | setsockopt p | associate p | wsaRecv p | wsaSend p =>
    exact e.typeIs (hd _ (List.mem_singleton_self _)) h

/-- No two objects have one socket. -/
theorem Shared.socket_inj (hown : ∀ n, y.owned ss n ≤ 1) {o a : ℕ} {overlp overlp' : OverlappedPerIo}
    (ho : y.objects[o]? = some overlp) (ha : y.objects[a]? = some overlp')
    (h : overlp.socket = overlp'.socket) : o = a := by
  by_contra hne
  have htwo := two_le_countP (p := fun x : OverlappedPerIo => x.socket == overlp'.socket) ho ha hne
    (by simp [h]) (by simp)
  have := hown overlp'.socket
  rw [Shared.owned] at this
  omega

theorem Effect.released (e : Effect y hs ss y' hs' ss' lost) (h : y.Released)
    (hown : ∀ n, y.owned ss n ≤ 1) (hdel : ∀ o, .delete o ∈ y.log → o < y.objects.length) :
    y'.Released := by
  rcases e.log with hlog | ⟨a, x, hx, hlog⟩
  · refine ⟨fun o overlp' hget => ?_, fun n hn => ?_⟩
    · rw [hlog]
      rcases e.made o overlp' hget with ⟨overlp, hget, hsock⟩ | ⟨rfl, hss, -⟩
      · exact hsock ▸ h.inPairs o overlp hget
      · refine .absent (fun hmem => ?_) fun hmem => Nat.lt_irrefl _ (hdel _ hmem)
        -- the socket was in the hands of the thread, so it was in no object
        obtain ⟨o, overlp, hget, hsock⟩ := h.closed _ hmem
        have hpos : 0 < y.objects.countP (·.socket == overlp'.socket) :=
          List.countP_pos_iff.mpr ⟨overlp, List.mem_of_getElem? hget, by simp [hsock]⟩
        have := List.count_pos_iff.mpr hss
        have := hown overlp'.socket
        rw [Shared.owned] at this
        omega
    · obtain ⟨o, overlp, hget, hsock⟩ := h.closed n (hlog ▸ hn)
      obtain ⟨overlp', hget', hsock', -⟩ := e.objects o overlp hget
      exact ⟨o, overlp', hget', hsock'.trans hsock⟩
  · refine ⟨fun o overlp' hget => ?_, fun n hn => ?_⟩
    · rcases e.made o overlp' hget with ⟨overlp, hget, hsock⟩ | ⟨-, -, hold⟩
      · rw [hlog, ← hsock]
        refine (h.inPairs o overlp hget).append ⟨fun hn => ?_, ?_⟩
        · exact Shared.socket_inj hown hx hget hn
        · rintro rfl
          rw [Option.some.inj (hx.symm.trans hget)]
      · simp [hlog] at hold
    · rw [hlog] at hn
      have hor : .closesocket n ∈ y.log ∨ n = x.socket := by simpa using hn
      obtain ⟨o, overlp, hget, hsock⟩ : ∃ (o : ℕ) (overlp : OverlappedPerIo),
          y.objects[o]? = some overlp ∧ overlp.socket = n := by
        rcases hor with hn | rfl
        · exact h.closed n hn
        · exact ⟨a, x, hx, rfl⟩
      obtain ⟨overlp', hget', hsock', -⟩ := e.objects o overlp hget
      exact ⟨o, overlp', hget', hsock'.trans hsock⟩

end Effect

end SelfStudy.TestIocp
