import SelfStudy.Lib.Chain
import SelfStudy.Lib.Machine
import Mathlib.Tactic.Simps.Basic

/-!
# The intrusive queue

`MPSCQueueIntrusive` of `MPSCQueue.h`, with a thread for each `i : ι` that enqueues again and again
and one consumer that dequeues again and again. The nodes belong to the callers: a node may be
enqueued if it is not in the queue, so one that has been returned may come back. A step performs one
load, store or exchange on an atomic.

The nodes from `_tail` to `_head` are a broken chain, with the dummy somewhere among them or not at
all. The consumer enqueues the dummy only when it has seen the chain shrunk to one other node.
-/

namespace SelfStudy.Threading

open Lib

universe v

namespace Intrusive

/-- A call of `Enqueue`, by its next step. -/
inductive EnqueuePc
  | idle
  | clear (input : ℕ)
  | exchange (input : ℕ)
  | link (input prevHead : ℕ)
  deriving DecidableEq, Repr

/-- The node that the call has not put into the chain yet. -/
def EnqueuePc.hand : EnqueuePc → Option ℕ
  | .clear n | .exchange n => some n
  | _ => none

/-- A call of `Dequeue`, by its next step. `skip` is the store that passes the dummy by, `storeTail`
the one before `result = tail`, `loadAgain` and `reload` the second and the third load of a link. -/
inductive DequeuePc
  | idle
  | loadNext (tail : ℕ)
  | skip (next : ℕ)
  | loadAgain (tail : ℕ)
  | storeTail (tail next : ℕ)
  | loadHead (tail : ℕ)
  | enqueueDummy (tail : ℕ) (pc : EnqueuePc)
  | reload (tail : ℕ)
  deriving DecidableEq, Repr

/-- The call of `Enqueue` inside the call of `Dequeue`. -/
def DequeuePc.enqueuing : DequeuePc → EnqueuePc
  | .enqueueDummy _ pc => pc
  | _ => .idle

inductive Action (ι : Type v)
  | enqueue (i : ι) (input : ℕ)
  | producer (i : ι)
  | consumer

end Intrusive

open Intrusive

/-- The queue with the links of all nodes and its threads. `inside` are the nodes that have been
given to `Enqueue` and not been returned; the logs are of the exchanges on `_head`, those of the
dummy left out, and of the results of `Dequeue`. -/
structure MPSCQueueIntrusive (ι : Type v) where
  dummyPtr : ℕ
  next : ℕ → Option ℕ
  head : ℕ
  tail : ℕ
  producer : ι → EnqueuePc
  consumer : DequeuePc
  inside : List ℕ
  exchanged : List ℕ
  returned : List ℕ

namespace MPSCQueueIntrusive

variable {ι : Type v}

/-- After the constructor. The links of the callers' nodes are arbitrary. -/
def initial (ι : Type v) (dummyPtr : ℕ) (next : ℕ → Option ℕ) : MPSCQueueIntrusive ι where
  dummyPtr := dummyPtr
  next := Function.update next dummyPtr none
  head := dummyPtr
  tail := dummyPtr
  producer _ := .idle
  consumer := .idle
  inside := []
  exchanged := []
  returned := []

@[simps] def setNext (s : MPSCQueueIntrusive ι) (a : ℕ) (n : Option ℕ) : MPSCQueueIntrusive ι :=
  { s with next := Function.update s.next a n }

@[simps] def setTail (s : MPSCQueueIntrusive ι) (a : ℕ) : MPSCQueueIntrusive ι :=
  { s with tail := a }

/-- `_head` is exchanged for node `a`. -/
@[simps] def setHead (s : MPSCQueueIntrusive ι) (a : ℕ) : MPSCQueueIntrusive ι :=
  { s with head := a, exchanged := if a = s.dummyPtr then s.exchanged else s.exchanged ++ [a] }

@[simps] def setConsumer (s : MPSCQueueIntrusive ι) (pc : DequeuePc) : MPSCQueueIntrusive ι :=
  { s with consumer := pc }

/-- A caller hands node `a` to `Enqueue`. -/
@[simps] def handIn (s : MPSCQueueIntrusive ι) (a : ℕ) : MPSCQueueIntrusive ι :=
  { s with inside := a :: s.inside }

/-- `Dequeue` returns node `a`. -/
@[simps] def release (s : MPSCQueueIntrusive ι) (a : ℕ) : MPSCQueueIntrusive ι :=
  { s with inside := s.inside.erase a, returned := s.returned ++ [a] }

/-- The next step of a call of `Enqueue`, and where the call stands then. -/
def enqueueStep (s : MPSCQueueIntrusive ι) : EnqueuePc → Option (MPSCQueueIntrusive ι × EnqueuePc)
  | .idle => none
  | .clear n => some (s.setNext n none, .exchange n)
  | .exchange n => some (s.setHead n, .link n s.head)
  | .link n p => some (s.setNext p (some n), .idle)

/-- Where `Dequeue` goes on when it has loaded the link of its node, which is not the dummy. -/
def afterLoad (t : ℕ) : Option ℕ → DequeuePc
  | some n => .storeTail t n
  | none => .loadHead t

/-- Where `Dequeue` stands after a step of its call of `Enqueue`. -/
def afterEnqueue (t : ℕ) : EnqueuePc → DequeuePc
  | .idle => .reload t
  | pc => .enqueueDummy t pc

/-- The next step of `Dequeue`. -/
def consumerStep (s : MPSCQueueIntrusive ι) : DequeuePc → Option (MPSCQueueIntrusive ι)
  | .idle => some (s.setConsumer (.loadNext s.tail))
  | .loadNext t =>
    if t = s.dummyPtr then
      match s.next t with
      | none => some (s.setConsumer .idle)
      | some n => some (s.setConsumer (.skip n))
    else some (s.setConsumer (afterLoad t (s.next t)))
  | .skip n => some ((s.setTail n).setConsumer (.loadAgain n))
  | .loadAgain t => some (s.setConsumer (afterLoad t (s.next t)))
  | .storeTail t n => some (((s.setTail n).release t).setConsumer .idle)
  | .loadHead t =>
    if t = s.head then some (s.setConsumer (.enqueueDummy t (.clear s.dummyPtr)))
    else some (s.setConsumer .idle)
  | .enqueueDummy t pc =>
    (s.enqueueStep pc).map fun q => q.1.setConsumer (afterEnqueue t q.2)
  | .reload t =>
    match s.next t with
    | none => some (s.setConsumer .idle)
    | some n => some (s.setConsumer (.storeTail t n))

variable [DecidableEq ι]

@[simps] def setProducer (s : MPSCQueueIntrusive ι) (i : ι) (pc : EnqueuePc) :
    MPSCQueueIntrusive ι :=
  { s with producer := Function.update s.producer i pc }

/-- One step. A caller gives a node of its own to `Enqueue` that is not in the queue. -/
def step (s : MPSCQueueIntrusive ι) : Action ι → Option (MPSCQueueIntrusive ι)
  | .enqueue i n =>
    if s.producer i = .idle ∧ n ∉ s.inside ∧ n ≠ s.dummyPtr then
      some ((s.handIn n).setProducer i (.clear n))
    else none
  | .producer i => (s.enqueueStep (s.producer i)).map fun q => q.1.setProducer i q.2
  | .consumer => s.consumerStep s.consumer

/-! ## What a step can do -/

/-- The steps of `Dequeue`. -/
inductive DequeueStep (s : MPSCQueueIntrusive ι) : DequeuePc → MPSCQueueIntrusive ι → Prop
  | loadTail : DequeueStep s .idle (s.setConsumer (.loadNext s.tail))
  | empty {t} (hd : t = s.dummyPtr) (hn : s.next t = none) :
    DequeueStep s (.loadNext t) (s.setConsumer .idle)
  | loadDummy {t n} (hd : t = s.dummyPtr) (hn : s.next t = some n) :
    DequeueStep s (.loadNext t) (s.setConsumer (.skip n))
  | load {t} (hd : t ≠ s.dummyPtr) :
    DequeueStep s (.loadNext t) (s.setConsumer (afterLoad t (s.next t)))
  | skip {n} : DequeueStep s (.skip n) ((s.setTail n).setConsumer (.loadAgain n))
  | loadAgain {t} : DequeueStep s (.loadAgain t) (s.setConsumer (afterLoad t (s.next t)))
  | storeTail {t n} : DequeueStep s (.storeTail t n) (((s.setTail n).release t).setConsumer .idle)
  | loadHead {t} (ht : t = s.head) :
    DequeueStep s (.loadHead t) (s.setConsumer (.enqueueDummy t (.clear s.dummyPtr)))
  | notHead {t} (ht : t ≠ s.head) : DequeueStep s (.loadHead t) (s.setConsumer .idle)
  | enqueueDummy {t pc q pc'} (h : s.enqueueStep pc = some (q, pc')) :
    DequeueStep s (.enqueueDummy t pc) (q.setConsumer (afterEnqueue t pc'))
  | reload {t n} (hn : s.next t = some n) :
    DequeueStep s (.reload t) (s.setConsumer (.storeTail t n))
  | giveUp {t} (hn : s.next t = none) : DequeueStep s (.reload t) (s.setConsumer .idle)

omit [DecidableEq ι] in
theorem consumerStep_cases {s s' : MPSCQueueIntrusive ι} {pc : DequeuePc}
    (h : s.consumerStep pc = some s') : DequeueStep s pc s' := by
  cases pc with
  | idle => exact Option.some.inj h ▸ .loadTail
  | loadNext t =>
    simp only [consumerStep] at h
    split_ifs at h with hd
    · split at h <;> rename_i hn
      · exact Option.some.inj h ▸ .empty hd hn
      · exact Option.some.inj h ▸ .loadDummy hd hn
    · exact Option.some.inj h ▸ .load hd
  | skip n => exact Option.some.inj h ▸ .skip
  | loadAgain t => exact Option.some.inj h ▸ .loadAgain
  | storeTail t n => exact Option.some.inj h ▸ .storeTail
  | loadHead t =>
    simp only [consumerStep] at h
    split_ifs at h with ht
    · exact Option.some.inj h ▸ .loadHead ht
    · exact Option.some.inj h ▸ .notHead ht
  | enqueueDummy t pc =>
    obtain ⟨⟨q, pc'⟩, hq, rfl⟩ := Option.map_eq_some_iff.mp h
    exact .enqueueDummy hq
  | reload t =>
    simp only [consumerStep] at h
    split at h <;> rename_i hn
    · exact Option.some.inj h ▸ .giveUp hn
    · exact Option.some.inj h ▸ .reload hn

inductive Step (s : MPSCQueueIntrusive ι) : MPSCQueueIntrusive ι → Prop
  | enqueue {i n} (hi : s.producer i = .idle) (hn : n ∉ s.inside) (hd : n ≠ s.dummyPtr) :
    Step s ((s.handIn n).setProducer i (.clear n))
  | producer {i t pc} (h : s.enqueueStep (s.producer i) = some (t, pc)) :
    Step s (t.setProducer i pc)
  | loadTail (hc : s.consumer = .idle) : Step s (s.setConsumer (.loadNext s.tail))
  | empty {t} (hc : s.consumer = .loadNext t) : Step s (s.setConsumer .idle)
  | loadDummy {t n} (hc : s.consumer = .loadNext t) (hd : t = s.dummyPtr)
    (hn : s.next t = some n) : Step s (s.setConsumer (.skip n))
  | skip {n} (hc : s.consumer = .skip n) : Step s ((s.setTail n).setConsumer (.loadAgain n))
  | load {t} (hc : s.consumer = .loadNext t ∧ t ≠ s.dummyPtr ∨ s.consumer = .loadAgain t) :
    Step s (s.setConsumer (afterLoad t (s.next t)))
  | storeTail {t n} (hc : s.consumer = .storeTail t n) :
    Step s (((s.setTail n).release t).setConsumer .idle)
  | loadHead {t} (hc : s.consumer = .loadHead t) (ht : t = s.head) :
    Step s (s.setConsumer (.enqueueDummy t (.clear s.dummyPtr)))
  | notHead {t} (hc : s.consumer = .loadHead t) : Step s (s.setConsumer .idle)
  | enqueueDummy {t pc q pc'} (hc : s.consumer = .enqueueDummy t pc)
    (h : s.enqueueStep pc = some (q, pc')) : Step s (q.setConsumer (afterEnqueue t pc'))
  | reload {t n} (hc : s.consumer = .reload t) (hn : s.next t = some n) :
    Step s (s.setConsumer (.storeTail t n))
  | giveUp {t} (hc : s.consumer = .reload t) : Step s (s.setConsumer .idle)

variable {s s' : MPSCQueueIntrusive ι} {a : Action ι}

theorem step_consumer (h : s.consumerStep s.consumer = some s') : Step s s' := by
  have hstep := consumerStep_cases h
  generalize hc : s.consumer = pc at hstep
  cases hstep with
  | loadTail => exact .loadTail hc
  | empty hd hn => exact .empty hc
  | loadDummy hd hn => exact .loadDummy hc hd hn
  | load hd => exact .load (.inl ⟨hc, hd⟩)
  | skip => exact .skip hc
  | loadAgain => exact .load (.inr hc)
  | storeTail => exact .storeTail hc
  | loadHead ht => exact .loadHead hc ht
  | notHead ht => exact .notHead hc
  | enqueueDummy hq => exact .enqueueDummy hc hq
  | reload hn => exact .reload hc hn
  | giveUp hn => exact .giveUp hc

/-- **Inversion.** -/
theorem step_cases (h : s.step a = some s') : Step s s' := by
  cases a with
  | enqueue i n =>
    simp only [step, Option.ite_none_right_eq_some, Option.some.injEq] at h
    obtain ⟨⟨hi, hn, hd⟩, rfl⟩ := h
    exact .enqueue hi hn hd
  | producer i =>
    obtain ⟨⟨t, pc⟩, hq, rfl⟩ := Option.map_eq_some_iff.mp h
    exact .producer hq
  | consumer => exact step_consumer h

/-! ## What a step leaves alone -/

omit [DecidableEq ι]

/-- The producers, the nodes in the queue and the results are the same. -/
structure Keeps (s s' : MPSCQueueIntrusive ι) : Prop where
  dummyPtr : s'.dummyPtr = s.dummyPtr
  producer : s'.producer = s.producer
  inside : s'.inside = s.inside
  returned : s'.returned = s.returned

theorem enqueueStep_keeps {pc pc' : EnqueuePc} (h : s.enqueueStep pc = some (s', pc')) :
    s.Keeps s' ∧ s'.consumer = s.consumer := by
  cases pc with
  | idle => cases h
  | clear n => cases h; exact ⟨⟨rfl, rfl, rfl, rfl⟩, rfl⟩
  | exchange n => cases h; exact ⟨⟨rfl, rfl, rfl, rfl⟩, rfl⟩
  | link n p => cases h; exact ⟨⟨rfl, rfl, rfl, rfl⟩, rfl⟩

/-- A step of `Dequeue` that is not the last one of a call that returns a node. -/
theorem consumerStep_keeps {pc : DequeuePc} (h : s.consumerStep pc = some s') :
    (∃ t n, pc = .storeTail t n ∧ s' = ((s.setTail n).release t).setConsumer .idle) ∨
      s.Keeps s' := by
  cases consumerStep_cases h with
  | storeTail => exact .inl ⟨_, _, rfl, rfl⟩
  | enqueueDummy hq =>
    obtain ⟨hd, hp, hin, hr⟩ := (enqueueStep_keeps hq).1
    exact .inr ⟨hd, hp, hin, hr⟩
  | _ => exact .inr ⟨rfl, rfl, rfl, rfl⟩

end MPSCQueueIntrusive

/-- The queue with a producer for each `i : ι`. -/
def mpscQueueIntrusive (ι : Type v) [DecidableEq ι] :
    Machine (MPSCQueueIntrusive ι) (Action ι) where
  init s := ∃ d next, s = .initial ι d next
  step := MPSCQueueIntrusive.step

end SelfStudy.Threading
