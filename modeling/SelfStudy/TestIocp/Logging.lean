import SelfStudy.TestIocp.Ownership

/-!
# The log of the received data

For each block it receives a worker writes `overlp->buffer` to the console as a C-string, that is up to
the first zero. The accept case has filled the buffer with zeros before the receive, and the object
belongs to nobody else in between, so behind the block there are zeros: if there is a byte behind the
block. `WSARecv` is given the whole buffer, and a block without a zero that fills it leaves none.

`LogServer` is the server with the blocks that the system has delivered, by object.
-/

namespace SelfStudy.TestIocp

open Lib
open Iocp (overwrite)

/-! ## C-strings -/

/-- The C-string at the start of the memory, up to the first zero; `none` if there is no zero. -/
def cString : List UInt8 → Option (List UInt8)
  | [] => none
  | c :: memory => if c = 0 then some [] else (cString memory).map (c :: ·)

theorem cString_eq (memory : List UInt8) :
    cString memory = if 0 ∈ memory then some (memory.takeWhile (· ≠ 0)) else none := by
  induction memory with
  | nil => rfl
  | cons c memory ih =>
    rw [cString, ih]
    by_cases hc : c = 0
    · simp [hc]
    · by_cases hmem : 0 ∈ memory <;> simp [hc, hmem, Ne.symm hc]

theorem cString_isSome_iff {memory : List UInt8} : (cString memory).isSome = true ↔ 0 ∈ memory := by
  rw [cString_eq]
  split_ifs with h <;> simp [h]

/-- A block that ends its own C-string in a buffer of zeros. -/
def Terminated (bytes : List UInt8) : Prop := bytes.length < buffSize ∨ 0 ∈ bytes

/-- The zeros of the accept case, and the block received over them. -/
theorem overwrite_zeros (bytes : List UInt8) :
    overwrite (List.replicate buffSize 0) 0 bytes =
      bytes ++ List.replicate (buffSize - bytes.length) 0 := by
  simp [overwrite]

theorem zero_mem_iff {bytes : List UInt8} (h : bytes.length ≤ buffSize) :
    0 ∈ bytes ++ List.replicate (buffSize - bytes.length) (0 : UInt8) ↔ Terminated bytes := by
  rw [List.mem_append, List.mem_replicate, or_comm, Terminated]
  refine or_congr_left ⟨fun hz => ?_, fun hlt => ⟨?_, rfl⟩⟩ <;> omega

/-! ## What an object holds -/

namespace Shared

variable (y : Shared)

/-- The object is ready for `WSARecv`. -/
def Zeroed (o : ℕ) : Prop :=
  ∃ overlp, y.objects[o]? = some overlp ∧ overlp.buffer = List.replicate buffSize 0 ∧
    overlp.wsaBuf = ⟨.buffer, buffSize⟩

/-- The buffer holds the block, and zeros behind it. -/
def Filled (o : ℕ) (bytes : List UInt8) : Prop :=
  bytes.length ≤ buffSize ∧ ∃ overlp, y.objects[o]? = some overlp ∧
    overlp.buffer = bytes ++ List.replicate (buffSize - bytes.length) 0

/-- A receive that has succeeded has delivered the block. -/
def PacketFilled (received : ℕ → List UInt8) (p : Packet) : Prop :=
  p.call = .wsaRecv → p.error = none →
    p.bytesTrans = (received p.overlapped).length ∧ y.Filled p.overlapped (received p.overlapped)

def PcFilled (received : ℕ → List UInt8) : WorkerPc → Prop
  | .dispatch p => p.error = none ∧ y.PacketFilled received p
  | .associate o | .wsaRecv o => y.Zeroed o
  | _ => True

/-- A receive that is outstanding goes to a buffer of zeros, and to all of it. -/
def OpZeroed (op : Operation) : Prop :=
  op.call = .wsaRecv → op.wsaBuf = ⟨.buffer, buffSize⟩ ∧ y.Zeroed op.overlapped

variable {y} {y' : Shared} {o : ℕ} {received received' : ℕ → List UInt8}

theorem Zeroed.keep (h : y.Zeroed o) (hk : y.Keeps y' o) : y'.Zeroed o := by
  obtain ⟨overlp, hget, hbuf⟩ := h
  exact ⟨overlp, hk overlp hget, hbuf⟩

theorem PacketFilled.keep {p : Packet} (h : y.PacketFilled received p)
    (hk : y.Keeps y' p.overlapped) (hr : received' p.overlapped = received p.overlapped) :
    y'.PacketFilled received' p := by
  intro hcall he
  obtain ⟨hn, hlen, overlp, hget, hbuf⟩ := h hcall he
  rw [hr]
  exact ⟨hn, hlen, overlp, hk overlp hget, hbuf⟩

theorem PcFilled.keep {pc : WorkerPc} (h : y.PcFilled received pc)
    (hk : ∀ o ∈ pc.holds, y.Keeps y' o ∧ received' o = received o) : y'.PcFilled received' pc := by
  cases pc with
  | dispatch p =>
    obtain ⟨hkeep, hr⟩ := hk p.overlapped (List.mem_singleton_self _)
    exact ⟨h.1, PacketFilled.keep h.2 hkeep hr⟩
  | associate o | wsaRecv o => exact Zeroed.keep h (hk o (List.mem_singleton_self _)).1
  | _ => trivial

theorem OpZeroed.keep {op : Operation} (h : y.OpZeroed op) (hk : y.Keeps y' op.overlapped) :
    y'.OpZeroed op := by
  intro hcall
  obtain ⟨hbuf, hz⟩ := h hcall
  exact ⟨hbuf, hz.keep hk⟩

theorem keeps_modify {a : ℕ} (f : OverlappedPerIo → OverlappedPerIo) (h : o ≠ a) :
    y.Keeps (y.modify a f) o := by
  intro overlp hget
  show (y.objects.modify a f)[o]? = some overlp
  rw [List.getElem?_modify, hget]
  exact congrArg some (if_neg (Ne.symm h))

end Shared

/-! ## The steps -/

section Steps

variable {y y' : Shared} {ans : Answer} {o : ℕ} {received : ℕ → List UInt8}

theorem PostStep.opZeroed {q : PostPc} {q' : Option PostPc} (h : PostStep y q ans y' q') :
    (∀ op ∈ y'.outstanding, op ∈ y.outstanding ∨ y'.OpZeroed op) ∧ y'.port = y.port := by
  cases h with
  | socket | noSocket | made | retry => exact ⟨fun _ => .inl, rfl⟩
  | started =>
    refine ⟨fun op hop => (List.mem_append.mp hop).imp_right fun hop hcall => ?_, rfl⟩
    rw [List.mem_singleton.mp hop] at hcall
    cases hcall

/-- A worker writes to the object it has in hand only. -/
theorem WorkerStep.keeps {pc pc' : WorkerPc} (h : WorkerStep y pc ans y' pc') (ho : o ∉ pc.holds) :
    y.Keeps y' o := by
  cases h with
  | posting h | posted h => exact h.keeps o
  | received | prepared => exact Shared.keeps_modify _ fun he => ho (List.mem_singleton.mpr he)
  | receiving | sending =>
    intro overlp hget
    unfold Shared.start
    split_ifs <;> exact hget
  | _ => exact fun _ => id

theorem WorkerStep.port_subset {pc pc' : WorkerPc} (h : WorkerStep y pc ans y' pc') :
    ∀ p ∈ y'.port, p ∈ y.port := by
  intro p hp
  cases h with
  | dequeued | dequeuedFailed => exact List.mem_of_mem_eraseIdx hp
  | posting h | posted h => exact h.opZeroed.2 ▸ hp
  | receiving | sending =>
    unfold Shared.start at hp
    split_ifs at hp <;> exact hp
  | _ => exact hp

/-- A worker starts receives into buffers of zeros only. -/
theorem WorkerStep.opZeroed {pc pc' : WorkerPc} (h : WorkerStep y pc ans y' pc')
    (hpc : y.PcFilled received pc) : ∀ op ∈ y'.outstanding, op ∈ y.outstanding ∨ y'.OpZeroed op := by
  intro op hop
  cases h with
  | posting h | posted h => exact h.opZeroed.1 op hop
  | @receiving o overlp r hget =>
    unfold Shared.start at hop ⊢
    split_ifs at hop ⊢
    · refine (List.mem_append.mp hop).imp_right fun hop => ?_
      rw [List.mem_singleton.mp hop]
      obtain ⟨overlp', hget', hbuf, hwsa⟩ := hpc
      obtain rfl := Option.some.inj (hget.symm.trans hget')
      exact fun _ => ⟨hwsa, overlp, hget, hbuf, hwsa⟩
    · exact .inl hop
  | @sending o overlp r hget =>
    unfold Shared.start at hop
    split_ifs at hop
    · refine (List.mem_append.mp hop).imp_right fun hop hcall => ?_
      rw [List.mem_singleton.mp hop] at hcall
      cases hcall
    · exact .inl hop
  | _ => exact .inl hop

/-- What a worker knows of the object after its step. -/
theorem WorkerStep.pcFilled {pc pc' : WorkerPc} (h : WorkerStep y pc ans y' pc') (hok : y.PcOk pc)
    (hport : ∀ p ∈ y.port, y.PacketFilled received p) (hpc : y.PcFilled received pc) :
    y'.PcFilled received pc' := by
  cases h with
  | dequeued _ h he => exact ⟨he, hport _ (List.mem_of_getElem? h)⟩
  | @prepared o =>
    obtain ⟨overlp, hget, -⟩ := hok
    refine ⟨overlp.forRecv, ?_, rfl, rfl⟩
    show (y.objects.modify o _)[o]? = _
    rw [List.getElem?_modify_eq, hget]
    rfl
  | associated | notAssociated => exact hpc
  | _ => trivial

end Steps

/-! ## The server with the delivered blocks -/

namespace Server

/-- What every object holds that is on its way through a receive. -/
structure Content (s : Server) (received : ℕ → List UInt8) : Prop where
  outstanding : ∀ op ∈ s.y.outstanding, s.y.OpZeroed op
  port : ∀ p ∈ s.y.port, s.y.PacketFilled received p
  workers : ∀ pc ∈ s.workers, s.y.PcFilled received pc

/-- The last block of each object, after a step. -/
def delivered (s : Server) (received : ℕ → List UInt8) : Action → ℕ → List UInt8
  | .complete j (.received bytes) =>
    s.y.outstanding[j]?.elim received fun op => Function.update received op.overlapped bytes
  | _ => received

/-- An object has its last block still, or the one that has just been delivered. -/
theorem delivered_cases (s : Server) (received : ℕ → List UInt8) (a : Action) (o : ℕ) :
    s.delivered received a o = received o ∨
      ∃ j bytes, a = .complete j (.received bytes) ∧ s.delivered received a o = bytes := by
  unfold delivered
  split
  · rename_i j bytes
    cases s.y.outstanding[j]? with
    | none => exact .inl rfl
    | some op =>
      by_cases ho : o = op.overlapped
      · subst ho
        exact .inr ⟨j, bytes, rfl, Function.update_self ..⟩
      · exact .inl (Function.update_of_ne ho ..)
  · exact .inl rfl

variable {s s' : Server} {received : ℕ → List UInt8} {i : ℕ} {pc : WorkerPc} {ans : Answer}

theorem content_initial (workers : ℕ) : Content (initial workers) fun _ => [] where
  outstanding op h := absurd h List.not_mem_nil
  port p h := absurd h List.not_mem_nil
  workers pc h := by
    rw [(List.mem_replicate.mp h).2]
    trivial

theorem Content.worker (h : Content s received) (hcore : Core s) {y' : Shared} {pc' : WorkerPc}
    {failures : List (ℕ × ℕ)} (hi : s.workers[i]? = some pc) (hstep : WorkerStep s.y pc ans y' pc') :
    Content { s with y := y', workers := s.workers.set i pc', failures := failures } received where
  outstanding op hop := by
    refine (hstep.opZeroed (h.workers pc (List.mem_of_getElem? hi)) op hop).elim (fun hold => ?_) id
    exact (h.outstanding op hold).keep (hstep.keeps
      (hcore.not_mem_of_load (worker_count_le_holders hi) (Shared.load_pos_of_outstanding hold)))
  port p hp := by
    have hold := hstep.port_subset p hp
    exact (h.port p hold).keep (hstep.keeps
      (hcore.not_mem_of_load (worker_count_le_holders hi) (Shared.load_pos_of_port hold))) rfl
  workers x hx := by
    have hmem := List.mem_of_getElem? hi
    obtain ⟨j, hj⟩ := List.getElem?_of_mem hx
    rcases mem_of_getElem?_set hj with ⟨-, rfl⟩ | ⟨hne, hj⟩
    · exact hstep.pcFilled (hcore.workers pc hmem) h.port (h.workers pc hmem)
    · exact (h.workers x (List.mem_of_getElem? hj)).keep fun o ho =>
        ⟨hstep.keeps (hcore.holds_disjoint hj hi hne o ho), rfl⟩

/-- A step of `test_iocp_demo` leaves all objects alone. -/
theorem Content.main (h : Content s received) (hstep : MainStep s ans s') : Content s' received := by
  cases hstep with
  | post hm hq =>
    obtain ⟨hout, hport⟩ := hq.opZeroed
    refine ⟨fun op hop => ?_, fun p hp => ?_, fun pc hpc => ?_⟩
    · exact (hout op hop).elim (fun hold => (h.outstanding op hold).keep (hq.keeps _)) id
    · exact (h.port p (hport ▸ hp)).keep (hq.keeps _) rfl
    · exact (h.workers pc hpc).keep fun o _ => ⟨hq.keeps o, rfl⟩
  | closesocket =>
    exact ⟨h.outstanding, h.port, fun pc hpc => (h.workers pc hpc).keep fun _ _ => ⟨fun _ => id, rfl⟩⟩
  | closeHandle =>
    exact ⟨h.outstanding, h.port, fun pc hpc => (h.workers pc hpc).keep fun _ _ => ⟨fun _ => id, rfl⟩⟩

/-- A receive that succeeds fills the buffer of its object, up to the zeros behind the block. -/
theorem Content.finish (h : Content s received) {j : ℕ} {r : Completion} {op : Operation}
    {f : OverlappedPerIo → OverlappedPerIo} {p : Packet} (hop : s.y.outstanding[j]? = some op)
    (hfin : op.finish r = some (f, p)) {y' : Shared}
    (hobj : y'.objects = s.y.objects.modify op.overlapped f) :
    y'.PacketFilled (s.delivered received (.complete j r)) p := by
  intro hcall he
  cases r with
  | accepted addresses =>
    obtain ⟨⟨hc, -⟩, hx⟩ := Option.ite_none_right_eq_some.mp hfin
    obtain ⟨-, rfl⟩ := Prod.mk.inj (Option.some.inj hx)
    rw [hc] at hcall
    cases hcall
  | received bytes =>
    obtain ⟨⟨hc, hlen⟩, hx⟩ := Option.ite_none_right_eq_some.mp hfin
    obtain ⟨rfl, rfl⟩ := Prod.mk.inj (Option.some.inj hx)
    obtain ⟨hwsa, overlp, hget, hbuf, -⟩ := h.outstanding op (List.mem_of_getElem? hop) hc
    have hdel : s.delivered received (.complete j (.received bytes)) op.overlapped = bytes := by
      rw [delivered, hop]
      exact Function.update_self ..
    rw [hdel]
    rw [hwsa] at hlen
    refine ⟨rfl, hlen, { overlp with buffer := overwrite overlp.buffer 0 bytes }, ?_, ?_⟩
    · rw [hobj, List.getElem?_modify, hget]
      exact congrArg some (if_pos rfl)
    · show overwrite overlp.buffer 0 bytes = _
      rw [hbuf, overwrite_zeros]
  | sent n =>
    obtain ⟨⟨hc, -⟩, hx⟩ := Option.ite_none_right_eq_some.mp hfin
    obtain ⟨-, rfl⟩ := Prod.mk.inj (Option.some.inj hx)
    rw [hc] at hcall
    cases hcall
  | failed code =>
    obtain ⟨-, rfl⟩ := Prod.mk.inj (Option.some.inj hfin)
    cases he

theorem Content.complete (h : Content s received) (hcore : Core s) {j : ℕ} {r : Completion}
    {y' : Shared} (hstep : s.y.complete j r = some y') :
    Content { s with y := y' } (s.delivered received (.complete j r)) := by
  obtain ⟨op, f, p, hop, hfin, rfl⟩ := Shared.complete_cases hstep
  obtain ⟨hops, hport, hworkers⟩ := hcore.sole hop
  have hdel : ∀ o, o ≠ op.overlapped → s.delivered received (.complete j r) o = received o := by
    intro o ho
    cases r with
    | received bytes =>
      rw [delivered, hop]
      exact Function.update_of_ne ho ..
    | _ => rfl
  refine ⟨fun op' hop' => ?_, fun p' hp' => ?_, fun pc hpc => ?_⟩
  · exact (h.outstanding op' (List.mem_of_mem_eraseIdx hop')).keep
      (Shared.keeps_modify f (hops op' hop'))
  · have hcases : p' ∈ s.y.port ∨ p' = p := by
      show p' ∈ s.y.port ∨ _
      simp only at hp'
      split_ifs at hp' with ha
      · exact (List.mem_append.mp hp').imp_right List.mem_singleton.mp
      · exact .inl hp'
    rcases hcases with hold | rfl
    · exact (h.port p' hold).keep (Shared.keeps_modify f (hport p' hold)) (hdel _ (hport p' hold))
    · exact h.finish hop hfin rfl
  · refine (h.workers pc hpc).keep fun o ho => ?_
    have hne : o ≠ op.overlapped := by
      rintro rfl
      exact hworkers pc hpc ho
    exact ⟨Shared.keeps_modify f hne, hdel o hne⟩

variable {a : Action}

/-- **Every step keeps the contents.** -/
theorem Content.step (h : Content s received) (hcore : Core s) (hs : s.step a = some s') :
    Content s' (s.delivered received a) := by
  cases a with
  | worker i ans =>
    cases step_cases hs with
    | worker hi hw => exact h.worker hcore hi hw
  | main ans => exact h.main (step_main_cases hs)
  | complete j r =>
    cases step_cases hs with
    | complete hc => exact h.complete hcore hc

end Server

/-- The server with the last block delivered into each object. -/
structure LogServer where
  server : Server
  received : ℕ → List UInt8

namespace LogServer

def step (s : LogServer) (a : Action) : Option LogServer :=
  (s.server.step a).map fun server => ⟨server, s.server.delivered s.received a⟩

def machine : Machine LogServer Action where
  init s := ∃ workers, s = ⟨.initial workers, fun _ => []⟩
  step := step

/-- The worker `i` is about to log the data of a receive, in the object `overlp`. -/
structure Logs (s : Server) (i : ℕ) (p : Packet) (overlp : OverlappedPerIo) : Prop where
  dispatch : s.workers[i]? = some (.dispatch p)
  object : s.y.objects[p.overlapped]? = some overlp
  type : overlp.type = .ioRecv
  bytesTrans : p.bytesTrans ≠ 0

variable {s : LogServer}

theorem inv_of_reachable {C : LogServer → Action → Prop} (h : machine.ReachableIf C s) :
    s.server.Core ∧ s.server.Content s.received := by
  refine h.invariant (P := fun s => s.server.Core ∧ s.server.Content s.received)
    (fun s hs => ?_) fun s a s' _ ih _ hs => ?_
  · obtain ⟨workers, rfl⟩ := hs
    exact ⟨(Server.initial_inv workers).core, Server.content_initial workers⟩
  · obtain ⟨server, hserver, rfl⟩ := Option.map_eq_some_iff.mp hs
    exact ⟨ih.1.step hserver, ih.2.step ih.1 hserver⟩

/-- What is in the buffer when it is logged. -/
theorem buffer_of_logs {C : LogServer → Action → Prop} (h : machine.ReachableIf C s) {i : ℕ}
    {p : Packet} {overlp : OverlappedPerIo} (hl : Logs s.server i p overlp) :
    p.bytesTrans = (s.received p.overlapped).length ∧
      (s.received p.overlapped).length ≤ buffSize ∧
      overlp.buffer = s.received p.overlapped ++
        List.replicate (buffSize - (s.received p.overlapped).length) 0 := by
  obtain ⟨hcore, hcontent⟩ := inv_of_reachable h
  have hmem := List.mem_of_getElem? hl.dispatch
  have hcall : p.call = .wsaRecv :=
    Shared.PacketOk.call_eq (hcore.workers _ hmem) hl.object (c := .wsaRecv) hl.type
  obtain ⟨he, hfilled⟩ := hcontent.workers _ hmem
  obtain ⟨hn, hlen, overlp', hget, hbuf⟩ := hfilled hcall he
  obtain rfl := Option.some.inj (hl.object.symm.trans hget)
  exact ⟨hn, hlen, hbuf⟩

/-- The C-string read of the logged buffer. -/
theorem cString_of_logs {C : LogServer → Action → Prop} (h : machine.ReachableIf C s) {i : ℕ}
    {p : Packet} {overlp : OverlappedPerIo} (hl : Logs s.server i p overlp) :
    (cString (overlp.buffer.take buffSize)).isSome = true ↔
      Terminated (s.received p.overlapped) := by
  obtain ⟨-, hlen, hbuf⟩ := buffer_of_logs h hl
  rw [hbuf, List.take_of_length_le (by simp; omega), cString_isSome_iff, zero_mem_iff hlen]

/-- The system delivers no block without a zero that fills a buffer. -/
def DeliversTerminated : Action → Prop
  | .complete _ (.received bytes) => Terminated bytes
  | _ => True

theorem terminated_of_reachable (h : machine.ReachableIf (fun _ a => DeliversTerminated a) s) :
    ∀ o, Terminated (s.received o) := by
  refine h.invariant (P := fun s => ∀ o, Terminated (s.received o)) (fun s hs => ?_)
    fun s a s' _ ih hC hs => ?_
  · obtain ⟨workers, rfl⟩ := hs
    exact fun _ => .inl (show 0 < buffSize by decide)
  · obtain ⟨server, -, rfl⟩ := Option.map_eq_some_iff.mp hs
    intro o
    show Terminated (s.server.delivered s.received a o)
    rcases s.server.delivered_cases s.received a o with hold | ⟨j, bytes, ha, hnew⟩
    · rw [hold]
      exact ih o
    · subst ha
      rw [hnew]
      exact hC

/-- **When the log stays inside the buffer.** Whenever a worker logs a received block, the C-string
ends inside the buffer exactly if the block contains a zero or leaves room for one; so it does in every
run in which the system delivers such blocks only. -/
theorem log_inside_iff (s : LogServer) (i : ℕ) (p : Packet) (overlp : OverlappedPerIo) :
    (machine.Reachable s → Logs s.server i p overlp →
      ((cString (overlp.buffer.take buffSize)).isSome = true ↔
        (s.received p.overlapped).length < buffSize ∨ 0 ∈ s.received p.overlapped)) ∧
    (machine.ReachableIf (fun _ a => DeliversTerminated a) s → Logs s.server i p overlp →
      (cString (overlp.buffer.take buffSize)).isSome = true) := by
  refine ⟨fun hr hl => cString_of_logs hr hl, fun hr hl => ?_⟩
  exact (cString_of_logs hr hl).mpr (terminated_of_reachable hr p.overlapped)

/-- The first client sends these bytes, and the first worker takes them from the port. -/
def block (bytes : List UInt8) : List Action :=
  Server.posts ++ Server.connect ++ [.complete 4 (.received bytes), .worker 0 (.packet 0)]

/-- A short block leaves room for a zero. -/
theorem log_inside_short : ∃ (s : LogServer) (p : Packet) (overlp : OverlappedPerIo),
    Logs s.server 0 p overlp ∧ s.received p.overlapped = [104, 105] ∧
    (cString (overlp.buffer.take buffSize)).isSome = true := by
  obtain ⟨s, p, overlp, hrun, hl, hreceived⟩ : ∃ (s : LogServer) (p : Packet)
      (overlp : OverlappedPerIo), machine.run ⟨.initial 1, fun _ => []⟩ (block [104, 105]) = some s ∧
      Logs s.server 0 p overlp ∧ s.received p.overlapped = [104, 105] :=
    ⟨_, _, _, rfl, ⟨rfl, rfl, rfl, by decide⟩, rfl⟩
  have hreach := Machine.Reachable.run (M := machine) (.init ⟨1, rfl⟩) hrun
  refine ⟨s, p, overlp, hl, hreceived, ((log_inside_iff s 0 p overlp).1 hreach hl).mpr (.inl ?_)⟩
  rw [hreceived]
  decide

set_option maxRecDepth 20000 in
/-- The log of 1024 bytes none of which is zero reads on behind the buffer. -/
theorem log_overruns : ∃ s, machine.run ⟨.initial 1, fun _ => []⟩
      (block (List.replicate buffSize 1)) = some s ∧
    ∃ p overlp, Logs s.server 0 p overlp ∧ p.bytesTrans = buffSize ∧
      cString (overlp.buffer.take buffSize) = none := by
  refine ⟨_, rfl, _, _, ⟨rfl, rfl, rfl, ?_⟩, rfl, ?_⟩
  · decide
  · decide

end LogServer

end SelfStudy.TestIocp
