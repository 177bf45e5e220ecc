import SelfStudy.TestIocp.Ownership

/-!
# The accept slots

An accept that completes is posted again by the worker that takes its packet, but only after the
test of the completion status: the object of a failed accept is deleted, or the worker returns, and
the slot is gone. Where every socket is created, the slots are all there along a run exactly if no
worker gets so far with a failed accept (`accept_slots_iff`).
-/

namespace SelfStudy.TestIocp

open Lib

/-! ## The slots -/

/-- The accepts that are outstanding or whose completion is queued. -/
def Shared.accepts (y : Shared) : ℕ :=
  y.outstanding.countP (·.call == .acceptEx) + y.port.countP (·.call == .acceptEx)

/-- A worker that has dequeued an accept and not posted the next one. -/
def WorkerPc.accepting : WorkerPc → Bool
  | .failed p | .drop p | .dispatch p => p.call == .acceptEx
  | .post _ _ => true
  | _ => false

/-- The accepts that `test_iocp_demo` has posted. -/
def MainPc.posted : MainPc → ℕ
  | .post i _ => i
  | .wait => startPostAcceptEx
  | .closeHandle | .returned => 0

/-- A worker that is about to delete the object of a failed accept, or to return. -/
def WorkerPc.losesSlot : WorkerPc → Bool
  | .failed p => p.call == .acceptEx && !disconnected p
  | .drop p => p.call == .acceptEx
  | _ => false

def Action.answer : Action → Answer
  | .worker _ ans | .main ans => ans
  | .complete _ _ => .none

namespace Server

def accepts (s : Server) : ℕ := s.y.accepts + s.workers.countP WorkerPc.accepting

/-- The step is the call of `WSASocket` in `PostAcceptEx`. -/
def CreatesSocket (s : Server) : Action → Prop
  | .worker i _ => ∃ p, s.workers[i]? = some (.post p .wsaSocket)
  | .main _ => ∃ k, s.main = .post k .wsaSocket
  | .complete _ _ => False

def losesSlot (s : Server) : Action → Bool
  | .worker i _ => s.workers[i]?.any WorkerPc.losesSlot
  | _ => false

/-- Every slot is there. -/
structure Slots (s : Server) : Prop where
  lt : ∀ k q, s.main = .post k q → k < startPostAcceptEx
  accepts : s.accepts = s.main.posted

end Server

/-! ## The slots under a step -/

section Steps

variable {y y' : Shared} {ans : Answer}

/-- `PostAcceptEx` posts one accept. -/
theorem PostStep.accepts {q : PostPc} {q' : Option PostPc} (h : PostStep y q ans y' q')
    (hA : q = .wsaSocket → ans ≠ .call false) :
    y'.accepts + (if q'.isSome then 1 else 0) = y.accepts + 1 := by
  cases h with
  | socket | made | retry => rfl
  | noSocket => exact absurd rfl (hA rfl)
  | started hr =>
    simp only [Shared.accepts, List.countP_append, List.countP_singleton, beq_self_eq_true, if_true,
      Option.isSome_none, Bool.false_eq_true, if_false]
    omega

theorem Shared.start_accepts {o socket : ℕ} {call : Call} {w : WsaBuf} {r : Iocp.CallResult}
    (h : call ≠ .acceptEx) : (y.start o call socket w r).accepts = y.accepts := by
  unfold Shared.start
  split_ifs
  · simp [Shared.accepts, h]
  · rfl

/-- **A worker keeps the slot**, unless the accept has failed. -/
theorem WorkerStep.accepts {pc pc' : WorkerPc} (h : WorkerStep y pc ans y' pc') (hok : y.PcOk pc)
    (hA : ∀ p, pc = .post p .wsaSocket → ans ≠ .call false) :
    y'.accepts + (if pc'.accepting then 1 else 0) + (if pc.losesSlot then 1 else 0) =
      y.accepts + if pc.accepting then 1 else 0 := by
  cases h with
  | @dequeued j p ho h he | @dequeuedFailed j p ho h he =>
    have := countP_eraseIdx_add (fun p : Packet => p.call == .acceptEx) h
    simp only [beq_iff_eq] at this
    simp only [Shared.accepts, WorkerPc.accepting, WorkerPc.losesSlot, beq_iff_eq,
      Bool.false_eq_true, if_false]
    omega
  | disconnected h => simp [WorkerPc.accepting, WorkerPc.losesSlot, h]
  | gaveUp h => simp [WorkerPc.accepting, WorkerPc.losesSlot, h]
  | dropped h => simp [Shared.accepts, WorkerPc.accepting, WorkerPc.losesSlot]
  | accepted h ht =>
    simp [WorkerPc.accepting, WorkerPc.losesSlot, hok.call_eq h (c := .acceptEx) ht]
  | received h ht hn =>
    simp [Shared.accepts, WorkerPc.accepting, WorkerPc.losesSlot, hok.call_eq h (c := .wsaRecv) ht]
  | sent h ht hn =>
    simp [WorkerPc.accepting, WorkerPc.losesSlot, hok.call_eq h (c := .wsaSend) ht]
  | unknown h ht =>
    rw [Shared.TypeIs.eq hok h] at ht
    exact absurd ht (Call.type_posted _)
  | posting h => exact h.accepts fun hq => hA _ (congrArg _ hq)
  | posted h => exact h.accepts fun hq => hA _ (congrArg _ hq)
  | receiving h => simp [Shared.start_accepts, WorkerPc.accepting, WorkerPc.losesSlot]
  | sending h => simp [Shared.start_accepts, WorkerPc.accepting, WorkerPc.losesSlot]
  | abandoned | empty | prepared | associated | notAssociated => rfl

/-- A completed accept is queued. -/
theorem Shared.complete_accepts {j : ℕ} {r : Completion} (h : y.complete j r = some y')
    (hok : ∀ op ∈ y.outstanding, y.OpOk op) (hl : y.associated listenSocket = true) :
    y'.accepts = y.accepts := by
  obtain ⟨op, f, p, hop, hfin, rfl⟩ := Shared.complete_cases h
  have hp : p.call = op.call := (Operation.finish_spec hfin).2.2
  have hcount := countP_eraseIdx_add (fun op : Operation => op.call == .acceptEx) hop
  by_cases ha : y.associated op.socket = true
  · simp only [Shared.accepts, ha, if_true, List.countP_append, List.countP_singleton, hp]
    omega
  · have hcall : op.call ≠ .acceptEx := fun hcall => by
      rw [(hok op (List.mem_of_getElem? hop)).socket hcall] at ha
      exact ha hl
    simp only [beq_iff_eq, hcall, if_false] at hcount
    simp only [Shared.accepts, if_neg ha]
    omega

end Steps

/-! ## The slots of the server -/

theorem MainPc.posted_next {k : ℕ} (hk : k < startPostAcceptEx) (q' : Option PostPc) :
    (q'.elim (MainPc.loop (k + 1)) (MainPc.post k)).posted + (if q'.isSome then 1 else 0) =
      k + 1 := by
  cases q' with
  | some q' => rfl
  | none =>
    show (MainPc.loop (k + 1)).posted = k + 1
    unfold MainPc.loop
    split_ifs with h
    · rfl
    · exact Nat.le_antisymm (Nat.le_of_not_lt h) hk

namespace Server

variable {s s' : Server} {a : Action}

/-- **One step**: what `test_iocp_demo` posts is added, and what a failed accept loses is missing. -/
theorem Inv.accepts (h : Inv s) (hstep : Step s a s') (hs' : s'.serving = true)
    (hlt : ∀ k q, s.main = .post k q → k < startPostAcceptEx)
    (hA : s.CreatesSocket a → a.answer ≠ .call false) :
    s'.accepts + (if s.losesSlot a then 1 else 0) + s.main.posted =
      s.accepts + s'.main.posted := by
  cases hstep with
  | @worker i ans pc y' pc' hi hw =>
    have hstep := hw.accepts (h.workers pc (List.mem_of_getElem? hi)) fun p hp => hA ⟨p, hp ▸ hi⟩
    have hcount := countP_set_add WorkerPc.accepting hi pc'
    simp only [accepts, losesSlot, hi, Option.any_some]
    omega
  | @post k q ans y' q' hm hq =>
    have hstep := hq.accepts fun hq => hA ⟨k, hq ▸ hm⟩
    have hnext := MainPc.posted_next (hlt k q hm) q'
    have hposted : s.main.posted = k := by rw [hm]; rfl
    simp only [accepts, losesSlot, Bool.false_eq_true, if_false]
    omega
  | shutdown hd => exact absurd hs' (by rw [hd]; decide)
  | complete hc =>
    simp only [accepts, losesSlot, Shared.complete_accepts hc h.outstanding h.listening]
    rfl

theorem Slots.step (h : Slots s) (hinv : Inv s) (hstep : Step s a s') (hs' : s'.serving = true)
    (hA : s.CreatesSocket a → a.answer ≠ .call false) (hC : s.losesSlot a = false) : Slots s' := by
  have haccepts := hinv.accepts hstep hs' h.lt hA
  rw [hC, h.accepts, if_neg (by decide)] at haccepts
  refine ⟨fun k q hm => ?_, by omega⟩
  cases hstep with
  | worker | complete => exact h.lt k q hm
  | @post l q₁ ans y' q' hm₁ hq =>
    cases q' with
    | none =>
      have hm : MainPc.loop (l + 1) = .post k q := hm
      unfold MainPc.loop at hm
      split_ifs at hm with hl
      exact (MainPc.post.inj hm).1 ▸ hl
    | some q' => exact (MainPc.post.inj hm).1 ▸ h.lt l q₁ hm₁
  | shutdown hd => exact absurd hs' (by rw [hd]; decide)

theorem slots_initial (workers : ℕ) : Slots (initial workers) := by
  refine ⟨fun k q hm => ?_, ?_⟩
  · obtain ⟨rfl, -⟩ := MainPc.post.inj hm
    decide
  · simp [initial, accepts, Shared.accepts, MainPc.loop, startPostAcceptEx, MainPc.posted,
      WorkerPc.accepting]

/-- **The slots are all there, exactly if no failed accept loses one.** In every run from the start,
with any number of workers, in which every `WSASocket` succeeds, the accepts that are outstanding,
queued or in the hands of a worker are all along the way to the shutdown as many as
`test_iocp_demo` has posted, and so `START_POST_ACCEPTEX` from the last post on, exactly if no worker
deletes the object of a failed accept or returns because of one. -/
theorem accept_slots_iff (workers : ℕ) (actions : List Action)
    (hA : machine.AllSteps (fun s a => s.CreatesSocket a → a.answer ≠ .call false)
      (initial workers) actions) :
    machine.Always (fun s => s.serving = true → s.accepts = s.main.posted) (initial workers)
        actions ↔
      machine.AllSteps (fun s a => s.serving = true → s.losesSlot a = false) (initial workers)
        actions := by
  refine always_serving_iff (Q := Slots) (fun s _ h => h.accepts)
    (fun s a s' hinv hslots hstep hs' hA hC => hslots.step hinv hstep hs' hA hC)
    (fun s a s' hinv hslots hstep hs' hA hP => ?_) (fun _ _ => rfl) (slots_initial workers) hA
  have haccepts := hinv.accepts hstep hs' hslots.lt hA
  rw [hslots.accepts, hP] at haccepts
  by_contra hl
  rw [if_pos (by simpa using hl)] at haccepts
  omega

theorem accept_slots_posts :
    machine.Always (fun s => s.serving = true → s.accepts = s.main.posted) (initial 2) posts := by
  have hposts : ∀ a ∈ posts, a = .main (.call true) ∨ a = .main .none ∨
      a = .main (.overlapped .success) := by decide
  refine (accept_slots_iff 2 posts (Machine.allSteps_of_forall (fun a ha s => ?_) _)).mpr
    (Machine.allSteps_of_forall (fun a ha s => ?_) _)
  · rcases hposts a ha with rfl | rfl | rfl <;> exact fun _ => by decide
  · rcases hposts a ha with rfl | rfl | rfl <;> exact fun _ => rfl

/-- A client connects and resets, and the accept fails. -/
def reset : List Action :=
  [.complete 0 (.failed errorNetnameDeleted), .worker 0 (.packet 0), .worker 0 .none,
    .worker 0 .none]

/-- Four clients that reset use up the accept slots, with every socket created. -/
theorem accept_slots_lost :
    machine.AllSteps (fun s a => s.CreatesSocket a → a.answer ≠ .call false) (initial 1)
        (posts ++ reset ++ reset ++ reset ++ reset) ∧
      (∃ s, machine.run (initial 1) (posts ++ reset) = some s ∧ s.main = .wait ∧
        s.accepts = 3) ∧
      ∃ s, machine.run (initial 1) (posts ++ reset ++ reset ++ reset ++ reset) = some s ∧
        s.main = .wait ∧ s.accepts = 0 := by
  have hanswer : ∀ a ∈ posts ++ reset ++ reset ++ reset ++ reset, a.answer ≠ .call false := by
    decide
  refine ⟨Machine.allSteps_of_forall (fun a ha s => ?_) _, ⟨_, rfl, rfl, rfl⟩, ⟨_, rfl, rfl, rfl⟩⟩
  exact fun _ => hanswer a ha

end Server

end SelfStudy.TestIocp
