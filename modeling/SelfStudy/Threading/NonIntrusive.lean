import SelfStudy.Lib.Chain
import SelfStudy.Lib.Machine
import Mathlib.Tactic.Simps.Basic

/-!
# The non-intrusive queue

`MPSCQueueNonIntrusive` of `MPSCQueue.h`, with a thread for each `i : ι` that enqueues again and
again and one consumer that dequeues again and again. A step performs one load, store or exchange
on an atomic. A new node takes any address that is not allocated, so addresses come back.

The nodes from `_tail` to `_head` are a broken chain. The payloads of those behind `_tail` are the
queue: `nonIntrusive_fifo`.
-/

namespace SelfStudy.Threading

open Lib

universe u v

namespace NonIntrusive

structure Node (β : Type u) where
  data : β
  next : Option ℕ

/-- A call of `Enqueue`, by its next step. -/
inductive ProducerPc
  | idle
  | exchange (node : ℕ)
  | link (node prevHead : ℕ)
  deriving DecidableEq, Repr

/-- A call of `Dequeue`, by its next step. `result` is what the call is going to return. -/
inductive ConsumerPc (β : Type u)
  | idle
  | loadNext (tail : ℕ)
  | storeTail (tail next : ℕ)
  | delete (tail : ℕ) (result : β)

/-- What the consumer has taken off the queue and not returned yet. -/
def ConsumerPc.inHand {β : Type u} : ConsumerPc β → List β
  | .delete _ r => [r]
  | _ => []

inductive Action (ι : Type v) (β : Type u)
  | enqueue (i : ι) (input : β) (address : ℕ)
  | producer (i : ι)
  | consumer

end NonIntrusive

open NonIntrusive

/-- The queue with its memory and its threads. `live` are the allocated nodes, `fault` tells whether
a step has accessed another one. The logs are of the calls of `Enqueue`, of the exchanges on
`_head` and of the results of `Dequeue`. -/
structure MPSCQueueNonIntrusive (ι : Type v) (β : Type u) where
  node : ℕ → Node β
  live : List ℕ
  head : ℕ
  tail : ℕ
  producer : ι → ProducerPc
  consumer : ConsumerPc β
  fault : Bool
  enqueued : List (ι × β)
  exchanged : List (ι × β)
  returned : List β

namespace MPSCQueueNonIntrusive

variable {ι : Type v} {β : Type u}

/-- After the constructor, whose node at `a` has indeterminate data. -/
def initial (ι : Type v) (a : ℕ) (d : β) : MPSCQueueNonIntrusive ι β where
  node _ := ⟨d, none⟩
  live := [a]
  head := a
  tail := a
  producer _ := .idle
  consumer := .idle
  fault := false
  enqueued := []
  exchanged := []
  returned := []

def next (s : MPSCQueueNonIntrusive ι β) (a : ℕ) : Option ℕ := (s.node a).next

def data (s : MPSCQueueNonIntrusive ι β) (a : ℕ) : β := (s.node a).data

/-- `new Node(input)` at address `a`. -/
@[simps] def allocate (s : MPSCQueueNonIntrusive ι β) (a : ℕ) (input : β) :
    MPSCQueueNonIntrusive ι β :=
  { s with node := Function.update s.node a ⟨input, none⟩, live := a :: s.live }

@[simps] def deallocate (s : MPSCQueueNonIntrusive ι β) (a : ℕ) : MPSCQueueNonIntrusive ι β :=
  { s with live := s.live.erase a }

/-- An access to node `a`. -/
@[simps] def touch (s : MPSCQueueNonIntrusive ι β) (a : ℕ) : MPSCQueueNonIntrusive ι β :=
  { s with fault := s.fault || decide (a ∉ s.live) }

@[simps] def setNext (s : MPSCQueueNonIntrusive ι β) (a : ℕ) (n : Option ℕ) :
    MPSCQueueNonIntrusive ι β :=
  { s with node := Function.update s.node a ⟨s.data a, n⟩ }

@[simps] def setHead (s : MPSCQueueNonIntrusive ι β) (a : ℕ) : MPSCQueueNonIntrusive ι β :=
  { s with head := a }

@[simps] def setTail (s : MPSCQueueNonIntrusive ι β) (a : ℕ) : MPSCQueueNonIntrusive ι β :=
  { s with tail := a }

@[simps] def setConsumer (s : MPSCQueueNonIntrusive ι β) (pc : ConsumerPc β) :
    MPSCQueueNonIntrusive ι β :=
  { s with consumer := pc }

@[simps] def logEnqueue (s : MPSCQueueNonIntrusive ι β) (i : ι) (x : β) :
    MPSCQueueNonIntrusive ι β :=
  { s with enqueued := s.enqueued ++ [(i, x)] }

@[simps] def logExchange (s : MPSCQueueNonIntrusive ι β) (i : ι) (x : β) :
    MPSCQueueNonIntrusive ι β :=
  { s with exchanged := s.exchanged ++ [(i, x)] }

@[simps] def logReturn (s : MPSCQueueNonIntrusive ι β) (x : β) : MPSCQueueNonIntrusive ι β :=
  { s with returned := s.returned ++ [x] }

variable {s : MPSCQueueNonIntrusive ι β}

theorem next_allocate (a : ℕ) (x : β) :
    (s.allocate a x).next = Function.update s.next a none := by
  funext b
  by_cases h : b = a
  · subst h
    simp [next]
  · simp [next, h]

theorem data_allocate_of_ne {a b : ℕ} (h : b ≠ a) (x : β) : (s.allocate a x).data b = s.data b := by
  simp [data, h]

theorem next_setNext (a : ℕ) (n : Option ℕ) :
    (s.setNext a n).next = Function.update s.next a n := by
  funext b
  by_cases h : b = a
  · subst h
    simp [next]
  · simp [next, h]

theorem data_setNext (a : ℕ) (n : Option ℕ) : (s.setNext a n).data = s.data := by
  funext b
  by_cases h : b = a
  · subst h
    simp [data]
  · simp [data, h]

theorem touch_fault_of_mem {a : ℕ} (h : a ∈ s.live) : (s.touch a).fault = s.fault := by
  simp [h]

/-- The next step of `Dequeue`. -/
def consumerStep (s : MPSCQueueNonIntrusive ι β) : ConsumerPc β → MPSCQueueNonIntrusive ι β
  | .idle => s.setConsumer (.loadNext s.tail)
  | .loadNext t =>
    match s.next t with
    | none => (s.touch t).setConsumer .idle
    | some n => (s.touch t).setConsumer (.storeTail t n)
  | .storeTail t n => ((s.touch n).setTail n).setConsumer (.delete t (s.data n))
  | .delete t r => (((s.touch t).deallocate t).logReturn r).setConsumer .idle

variable [DecidableEq ι]

@[simps] def setProducer (s : MPSCQueueNonIntrusive ι β) (i : ι) (pc : ProducerPc) :
    MPSCQueueNonIntrusive ι β :=
  { s with producer := Function.update s.producer i pc }

/-- The next step of a call of `Enqueue`. -/
def producerStep (s : MPSCQueueNonIntrusive ι β) (i : ι) :
    ProducerPc → Option (MPSCQueueNonIntrusive ι β)
  | .idle => none
  | .exchange n =>
    some (((s.setHead n).logExchange i (s.data n)).setProducer i (.link n s.head))
  | .link n p => some (((s.touch p).setNext p (some n)).setProducer i .idle)

def step (s : MPSCQueueNonIntrusive ι β) : Action ι β → Option (MPSCQueueNonIntrusive ι β)
  | .enqueue i x a =>
    if s.producer i = .idle ∧ a ∉ s.live then
      some (((s.allocate a x).logEnqueue i x).setProducer i (.exchange a))
    else none
  | .producer i => s.producerStep i (s.producer i)
  | .consumer => some (s.consumerStep s.consumer)

/-! ## What a step can do -/

inductive Step (s : MPSCQueueNonIntrusive ι β) : MPSCQueueNonIntrusive ι β → Prop
  | enqueue {i x a} (hi : s.producer i = .idle) (ha : a ∉ s.live) :
    Step s (((s.allocate a x).logEnqueue i x).setProducer i (.exchange a))
  | exchange {i n} (hi : s.producer i = .exchange n) :
    Step s (((s.setHead n).logExchange i (s.data n)).setProducer i (.link n s.head))
  | link {i n p} (hi : s.producer i = .link n p) :
    Step s (((s.touch p).setNext p (some n)).setProducer i .idle)
  | loadTail (hc : s.consumer = .idle) : Step s (s.setConsumer (.loadNext s.tail))
  | empty {t} (hc : s.consumer = .loadNext t) (hn : s.next t = none) :
    Step s ((s.touch t).setConsumer .idle)
  | loadNext {t n} (hc : s.consumer = .loadNext t) (hn : s.next t = some n) :
    Step s ((s.touch t).setConsumer (.storeTail t n))
  | storeTail {t n} (hc : s.consumer = .storeTail t n) :
    Step s (((s.touch n).setTail n).setConsumer (.delete t (s.data n)))
  | delete {t r} (hc : s.consumer = .delete t r) :
    Step s ((((s.touch t).deallocate t).logReturn r).setConsumer .idle)

variable {s' : MPSCQueueNonIntrusive ι β} {a : Action ι β}

/-- **Inversion.** -/
theorem step_cases (h : s.step a = some s') : Step s s' := by
  cases a with
  | enqueue i x a =>
    simp only [step, Option.ite_none_right_eq_some, Option.some.injEq] at h
    obtain ⟨⟨hi, ha⟩, rfl⟩ := h
    exact .enqueue hi ha
  | producer i =>
    simp only [step] at h
    cases hi : s.producer i <;> rw [hi] at h
    · cases h
    · exact Option.some.inj h ▸ .exchange hi
    · exact Option.some.inj h ▸ .link hi
  | consumer =>
    obtain rfl := Option.some.inj h
    cases hc : s.consumer with
    | idle => exact .loadTail hc
    | loadNext t =>
      simp only [consumerStep]
      split <;> rename_i hn
      · exact .empty hc hn
      · exact .loadNext hc hn
    | storeTail t n => exact .storeTail hc
    | delete t r => exact .delete hc

end MPSCQueueNonIntrusive

/-- The queue with a producer for each `i : ι`. -/
def mpscQueueNonIntrusive (ι : Type v) (β : Type u) [DecidableEq ι] :
    Machine (MPSCQueueNonIntrusive ι β) (Action ι β) where
  init s := ∃ a d, s = .initial ι a d
  step := MPSCQueueNonIntrusive.step

end SelfStudy.Threading
