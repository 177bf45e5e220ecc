import SelfStudy.Lib.Count
import SelfStudy.Lib.Ledger
import SelfStudy.Threading.NonIntrusiveFifo

/-!
# Nodes of the non-intrusive queue

`Dequeue` deletes the node it leaves while producers hold raw pointers to nodes. A producer's
`prevHead` is in the chain until its link is stored, and the consumer leaves a node only by a link
that is there, so nobody else has a pointer to the node that is deleted (`NoDangling`). The ledger
tells the nodes apart that were at one address. The destructor dequeues until the queue is empty and
deletes the last node.
-/

namespace SelfStudy.Threading

open Lib NonIntrusive

universe u v

namespace NonIntrusive

/-- The pointers in the hands of a producer. -/
def ProducerPc.pointers : ProducerPc → List ℕ
  | .idle => []
  | .exchange n => [n]
  | .link n p => [n, p]

/-- The pointers in the hands of the consumer. -/
def ConsumerPc.pointers {β : Type u} : ConsumerPc β → List ℕ
  | .idle => []
  | .loadNext t => [t]
  | .storeTail t n => [t, n]
  | .delete t _ => [t]

end NonIntrusive

namespace MPSCQueueNonIntrusive

variable {ι : Type v} {β : Type u} {s s' : MPSCQueueNonIntrusive ι β} {l : List ℕ}

/-- Every pointer that is anywhere leads to an allocated node. -/
structure NoDangling (s : MPSCQueueNonIntrusive ι β) : Prop where
  head : s.head ∈ s.live
  tail : s.tail ∈ s.live
  link : ∀ a ∈ s.live, ∀ b, s.next a = some b → b ∈ s.live
  producer : ∀ i, ∀ a ∈ (s.producer i).pointers, a ∈ s.live
  consumer : ∀ a ∈ s.consumer.pointers, a ∈ s.live

/-- The nodes are those of the chain, the producers' new ones and the one about to be deleted. -/
structure Complete (s : MPSCQueueNonIntrusive ι β) (l : List ℕ) : Prop where
  live : ∀ a ∈ s.live, a ∈ s.tail :: l ∨ (∃ i, s.producer i = .exchange a) ∨
    ∃ r, s.consumer = .delete a r
  left : ∀ t r, s.consumer = .delete t r → s.next t = some s.tail

theorem Inv.noDangling (h : s.Inv l) (hc : s.Complete l) : s.NoDangling where
  head := h.live _ (List.mem_of_getLast? h.head)
  tail := h.live _ List.mem_cons_self
  link a ha b hab := by
    rcases hc.live a ha with hl | ⟨i, hi⟩ | ⟨r, hr⟩
    · exact h.live b (mem_of_adjacent (h.chain.pair_of_next hl hab)).2
    · rw [(h.fresh i a hi).2.2] at hab
      cases hab
    · rw [hc.left a r hr] at hab
      exact Option.some.inj hab ▸ h.live _ List.mem_cons_self
  producer i a ha := by
    cases hi : s.producer i with
    | idle => rw [hi] at ha; cases ha
    | exchange n =>
      rw [hi] at ha
      exact List.mem_singleton.mp ha ▸ (h.fresh i n hi).1
    | link n p =>
      rw [hi] at ha
      obtain ⟨hp, hn⟩ := mem_of_adjacent (h.chain.pending i p n hi).1
      rcases List.mem_pair.mp ha with rfl | rfl
      · exact h.live _ hn
      · exact h.live _ hp
  consumer a ha := by
    have hk := h.consumer
    cases hpc : s.consumer with
    | idle => rw [hpc] at ha; cases ha
    | loadNext t =>
      rw [hpc] at ha hk
      exact List.mem_singleton.mp ha ▸ hk ▸ h.live _ List.mem_cons_self
    | storeTail t n =>
      rw [hpc] at ha hk
      obtain ⟨rfl, hn⟩ := hk
      rcases List.mem_pair.mp ha with rfl | rfl
      · exact h.live _ List.mem_cons_self
      · exact h.live _ (mem_of_adjacent (h.chain.pair_of_next List.mem_cons_self hn)).2
    | delete t r =>
      rw [hpc] at ha hk
      exact List.mem_singleton.mp ha ▸ hk.1

/-! ## Steps -/

/-- A step of the consumer that neither leaves nor deletes a node. -/
theorem Complete.setConsumer (h : s.Complete l) {pc : ConsumerPc β} (hs : ∀ t r, s.consumer ≠ .delete t r)
    (hpc : ∀ t r, pc ≠ .delete t r) : (s.setConsumer pc).Complete l where
  live a ha := by
    rcases h.live a ha with hl | hi | ⟨r, hr⟩
    · exact .inl hl
    · exact .inr (.inl hi)
    · exact absurd hr (hs a r)
  left t r hr := absurd hr (hpc t r)

theorem Complete.storeTail {t n : ℕ} {d : β} (h : s.Complete (n :: l)) (ht : t = s.tail)
    (hn : s.next t = some n) (hc : s.consumer = .storeTail t n) :
    (((s.touch n).setTail n).setConsumer (.delete t d)).Complete l where
  live a ha := by
    rcases h.live a ha with hl | hi | ⟨r, hr⟩
    · rcases List.mem_cons.mp hl with rfl | hl
      · exact .inr (.inr ⟨d, ht ▸ rfl⟩)
      · exact .inl hl
    · exact .inr (.inl hi)
    · rw [hc] at hr
      cases hr
  left u r hr := by
    obtain ⟨rfl, -⟩ := ConsumerPc.delete.inj hr
    exact hn

theorem Complete.delete {t : ℕ} {r : β} (h : s.Complete l) (hnodup : s.live.Nodup)
    (hc : s.consumer = .delete t r) :
    ((((s.touch t).deallocate t).logReturn r).setConsumer .idle).Complete l where
  live a ha := by
    obtain ⟨hne, ha⟩ := hnodup.mem_erase_iff.mp ha
    rcases h.live a ha with hl | hi | ⟨q, hq⟩
    · exact .inl hl
    · exact .inr (.inl hi)
    · rw [hc] at hq
      exact absurd (ConsumerPc.delete.inj hq).1.symm hne
  left u q hq := by cases hq

variable [DecidableEq ι]

theorem Complete.enqueue (h : s.Complete l) (hk : s.ConsumerKnows l s.consumer) {i : ι} {x : β}
    {a : ℕ} (hi : s.producer i = .idle) (ha : a ∉ s.live) :
    (((s.allocate a x).logEnqueue i x).setProducer i (.exchange a)).Complete l where
  live b hb := by
    rcases List.mem_cons.mp hb with rfl | hb
    · exact .inr (.inl ⟨i, Function.update_self ..⟩)
    · refine (h.live b hb).imp_right (Or.imp_left ?_)
      rintro ⟨j, hj⟩
      have hne : j ≠ i := by
        rintro rfl
        rw [hi] at hj
        cases hj
      exact ⟨j, (Function.update_of_ne hne _ _).trans hj⟩
  left t r hr := by
    have hr : s.consumer = .delete t r := hr
    rw [hr] at hk
    show (s.allocate a x).next t = some s.tail
    rw [next_allocate, Function.update_of_ne, h.left t r hr]
    rintro rfl
    exact ha hk.1

theorem Complete.exchange (h : s.Complete l) {i : ι} {n : ℕ} (hi : s.producer i = .exchange n) :
    (((s.setHead n).logExchange i (s.data n)).setProducer i (.link n s.head)).Complete
      (l ++ [n]) where
  live b hb := by
    rw [← List.cons_append, List.mem_append, List.mem_singleton]
    rcases h.live b hb with hl | ⟨j, hj⟩ | hr
    · exact .inl (.inl hl)
    · by_cases e : j = i
      · subst e
        rw [hi] at hj
        exact .inl (.inr (ProducerPc.exchange.inj hj).symm)
      · exact .inr (.inl ⟨j, (Function.update_of_ne e _ _).trans hj⟩)
    · exact .inr (.inr hr)
  left := h.left

theorem Complete.link (h : s.Complete l) (hk : s.ConsumerKnows l s.consumer) {i : ι} {n p : ℕ}
    (hi : s.producer i = .link n p) (hp : p ∈ s.tail :: l) :
    (((s.touch p).setNext p (some n)).setProducer i .idle).Complete l where
  live b hb := by
    refine (h.live b hb).imp_right (Or.imp_left ?_)
    rintro ⟨j, hj⟩
    have hne : j ≠ i := by
      rintro rfl
      rw [hi] at hj
      cases hj
    exact ⟨j, (Function.update_of_ne hne _ _).trans hj⟩
  left t r hr := by
    have hr : s.consumer = .delete t r := hr
    rw [hr] at hk
    show ((s.touch p).setNext p (some n)).next t = some s.tail
    rw [next_setNext, Function.update_of_ne]
    · exact h.left t r hr
    · rintro rfl
      exact hk.2.1 hp

theorem complete_step (h : s.Inv l) (hc : s.Complete l) (hs : Step s s') :
    ∃ l', s'.Inv l' ∧ s'.Complete l' := by
  have hk := h.consumer
  have htail : s.tail ∈ s.live := h.live _ List.mem_cons_self
  cases hs with
  | enqueue hi ha => exact ⟨l, h.enqueue hi ha, hc.enqueue hk hi ha⟩
  | exchange hi => exact ⟨_, h.exchange hi, hc.exchange hi⟩
  | @link i n p hi =>
    have hp := (mem_of_adjacent (h.chain.pending i p n hi).1).1
    exact ⟨l, h.link hi, hc.link hk hi hp⟩
  | loadTail hpc =>
    exact ⟨l, h.setConsumer rfl (by rw [hpc]; rfl), hc.setConsumer (by simp [hpc]) (by simp)⟩
  | @empty t hpc hn =>
    rw [hpc] at hk
    exact ⟨l, (h.touch (hk ▸ htail)).setConsumer trivial (by rw [touch_consumer, hpc]; rfl),
      Complete.setConsumer (s := s.touch t) ⟨hc.live, hc.left⟩ (by simp [hpc]) (by simp)⟩
  | @loadNext t n hpc hn =>
    rw [hpc] at hk
    exact ⟨l, (h.touch (hk ▸ htail)).setConsumer ⟨hk, hn⟩ (by rw [touch_consumer, hpc]; rfl),
      Complete.setConsumer (s := s.touch t) ⟨hc.live, hc.left⟩ (by simp [hpc]) (by simp)⟩
  | storeTail hpc =>
    obtain ⟨l', rfl, h'⟩ := h.storeTail hpc
    rw [hpc] at hk
    exact ⟨l', h', hc.storeTail hk.1 hk.2 hpc⟩
  | delete hpc => exact ⟨l, h.delete hpc, hc.delete h.nodup hpc⟩

end MPSCQueueNonIntrusive

/-! ## The ledger of the nodes -/

/-- The queue with the ledger of its nodes. -/
structure NodeLedger (ι : Type v) (β : Type u) where
  queue : MPSCQueueNonIntrusive ι β
  nodes : Ledger

namespace NodeLedger

variable {ι : Type v} {β : Type u}

/-- What a step of the queue allocates or deletes. -/
def account (s : NodeLedger ι β) : Action ι β → Ledger
  | .enqueue _ _ a => s.nodes.allocate a
  | .producer _ => s.nodes
  | .consumer =>
    match s.queue.consumer with
    | .delete t _ => s.nodes.delete t
    | _ => s.nodes

def step [DecidableEq ι] (s : NodeLedger ι β) (a : Action ι β) : Option (NodeLedger ι β) :=
  (s.queue.step a).map fun q => ⟨q, s.account a⟩

/-- The queue is well-formed with the nodes `l` behind `_tail`, and the ledger fits. -/
structure Inv (s : NodeLedger ι β) (l : List ℕ) : Prop where
  queue : s.queue.Inv l
  complete : s.queue.Complete l
  nodes : s.nodes.Accounts s.queue.live

variable [DecidableEq ι] {s s' : NodeLedger ι β} {l : List ℕ}

theorem Inv.account (h : s.Inv l) {a : Action ι β} {q : MPSCQueueNonIntrusive ι β}
    (hs : s.queue.step a = some q) : (s.account a).Accounts q.live := by
  cases a with
  | enqueue i x a =>
    simp only [MPSCQueueNonIntrusive.step, Option.ite_none_right_eq_some, Option.some.injEq] at hs
    obtain ⟨⟨-, ha⟩, rfl⟩ := hs
    exact h.nodes.allocate ha
  | producer i =>
    cases hi : s.queue.producer i <;>
      simp only [MPSCQueueNonIntrusive.step, hi, MPSCQueueNonIntrusive.producerStep] at hs
    · cases hs
    · exact Option.some.inj hs ▸ h.nodes
    · exact Option.some.inj hs ▸ h.nodes
  | consumer =>
    obtain rfl := Option.some.inj hs
    have hk := h.queue.consumer
    unfold NodeLedger.account
    cases hc : s.queue.consumer with
    | idle => exact h.nodes
    | loadNext t =>
      simp only [MPSCQueueNonIntrusive.consumerStep]
      cases s.queue.next t <;> exact h.nodes
    | storeTail t n => exact h.nodes
    | delete t r =>
      rw [hc] at hk
      exact h.nodes.delete hk.1

theorem inv_step (h : s.Inv l) {a : Action ι β} (hs : s.step a = some s') : ∃ l', s'.Inv l' := by
  obtain ⟨q, hq, rfl⟩ := Option.map_eq_some_iff.mp hs
  obtain ⟨l', hl, hc⟩ := MPSCQueueNonIntrusive.complete_step h.queue h.complete
    (MPSCQueueNonIntrusive.step_cases hq)
  exact ⟨l', hl, hc, h.account hq⟩

end NodeLedger

def nodeLedger (ι : Type v) (β : Type u) [DecidableEq ι] :
    Machine (NodeLedger ι β) (Action ι β) where
  init s := ∃ a d, s = ⟨.initial ι a d, .first⟩
  step := NodeLedger.step

theorem inv_of_nodeLedger {ι : Type v} {β : Type u} [DecidableEq ι] {s : NodeLedger ι β}
    (h : (nodeLedger ι β).Reachable s) : ∃ l, s.Inv l := by
  refine h.invariant (P := fun s => ∃ l, s.Inv l) ?_ ?_
  · rintro _ ⟨a, d, rfl⟩
    exact ⟨[], MPSCQueueNonIntrusive.inv_initial a d, ⟨fun b hb => .inl hb, fun _ _ h => by cases h⟩,
      Ledger.accounts_first a⟩
  · rintro s a s' _ ⟨l, hl⟩ _ hs
    exact NodeLedger.inv_step hl hs

/-! ## The destructor -/

namespace NonIntrusive

/-- The destructor, by its next statement; in `dequeue` it stands in the call of `Dequeue`. -/
inductive DestructorPc (β : Type u)
  | dequeue
  | deleteOutput (output : β)
  | loadHead
  | deleteFront (front : ℕ)
  | done

end NonIntrusive

/-- The destructor at work. `payloads` are those it has deleted. -/
structure Destructor (ι : Type v) (β : Type u) where
  memory : NodeLedger ι β
  pc : DestructorPc β
  payloads : List β

namespace Destructor

variable {ι : Type v} {β : Type u}

def start (s : NodeLedger ι β) : Destructor ι β := ⟨s, .dequeue, []⟩

/-- Where the destructor goes on after a step of `Dequeue`: if the call has returned, `true` comes with
the payload that was added to the results. -/
def afterDequeue (before after : MPSCQueueNonIntrusive ι β) : DestructorPc β :=
  match after.consumer with
  | .idle =>
    match after.returned.drop before.returned.length with
    | output :: _ => .deleteOutput output
    | [] => .loadHead
  | _ => .dequeue

/-- The next step of the destructor. -/
def step [DecidableEq ι] (s : Destructor ι β) (_ : Unit) : Option (Destructor ι β) :=
  match s.pc with
  | .dequeue => (s.memory.step .consumer).map fun m =>
    { s with memory := m, pc := afterDequeue s.memory.queue m.queue }
  | .deleteOutput output => some { s with payloads := s.payloads ++ [output], pc := .dequeue }
  | .loadHead => some { s with pc := .deleteFront s.memory.queue.head }
  | .deleteFront front => some { s with
      memory := ⟨(s.memory.queue.touch front).deallocate front, s.memory.nodes.delete front⟩
      pc := .done }
  | .done => none

end Destructor

def destructor (ι : Type v) (β : Type u) [DecidableEq ι] : Machine (Destructor ι β) Unit where
  init s := ∃ m, s = .start m
  step := Destructor.step

namespace NonIntrusive

/-- What the destructor has got from `Dequeue` and not deleted yet. -/
def DestructorPc.inHand {β : Type u} : DestructorPc β → List β
  | .deleteOutput output => [output]
  | _ => []

/-- How far the destructor is from the next call of `Dequeue` or from its end. -/
def DestructorPc.rank {β : Type u} (consumer : ConsumerPc β) : DestructorPc β → ℕ
  | .dequeue =>
    match consumer with
    | .idle => 4
    | .loadNext _ => 3
    | .storeTail _ _ => 2
    | .delete _ _ => 1
  | .deleteOutput _ => 5
  | .loadHead => 2
  | .deleteFront _ => 1
  | .done => 0

end NonIntrusive

namespace Destructor

variable {ι : Type v} {β : Type u} {m : NodeLedger ι β} {s s' : Destructor ι β}

/-- The destructor, started on `m`, has not deleted the last node yet. -/
structure Running (m : NodeLedger ι β) (s : Destructor ι β) : Prop where
  inv : ∃ l, s.memory.Inv l
  quiet : ∀ i, s.memory.queue.producer i = .idle
  exchanged : s.memory.queue.exchanged = m.queue.exchanged
  created : s.memory.nodes.created = m.nodes.created
  returned : s.memory.queue.returned = m.queue.returned ++ s.payloads ++ s.pc.inHand
  idle : s.pc ≠ .dequeue → s.memory.queue.consumer = .idle
  empty : s.pc ≠ .dequeue → s.pc.inHand = [] →
    s.memory.queue.exchanged.map Prod.snd = s.memory.queue.returned
  front : ∀ f, s.pc = .deleteFront f → f = s.memory.queue.head
  notDone : s.pc ≠ .done

/-- The destructor has returned. -/
structure Finished (m : NodeLedger ι β) (s : Destructor ι β) : Prop where
  done : s.pc = .done
  fault : s.memory.queue.fault = false
  live : s.memory.queue.live = []
  created : s.memory.nodes.created = m.nodes.created
  deleted : ∀ k < s.memory.nodes.created, s.memory.nodes.deletions k = 1
  payloads : m.queue.exchanged.map Prod.snd = m.queue.returned ++ s.payloads

/-- With the queue empty and nobody at work, the only node is the one at `_head`. -/
theorem live_eq {l : List ℕ} (h : m.Inv l) (hp : ∀ i, m.queue.producer i = .idle)
    (hc : m.queue.consumer = .idle)
    (he : m.queue.exchanged.map Prod.snd = m.queue.returned) : m.queue.live = [m.queue.head] := by
  have hl : l = [] := by
    have hfifo := h.queue.fifo
    rw [hc, he] at hfifo
    simpa [ConsumerPc.inHand] using hfifo
  subst hl
  have htail : m.queue.tail = m.queue.head := Option.some.inj h.queue.head
  refine List.perm_singleton.mp ((List.perm_ext_iff_of_nodup h.queue.nodup
    (List.nodup_singleton _)).mpr fun a => ⟨fun ha => ?_, fun ha => ?_⟩)
  · rcases h.complete.live a ha with hl | ⟨i, hi⟩ | ⟨r, hr⟩
    · exact htail ▸ hl
    · rw [hp i] at hi
      cases hi
    · rw [hc] at hr
      cases hr
  · exact h.queue.live a (htail.symm ▸ ha)

/-- How much the destructor still has to do. -/
def work (s : Destructor ι β) : ℕ :=
  6 * (s.memory.queue.exchanged.length - s.memory.queue.returned.length) +
    s.pc.rank s.memory.queue.consumer

/-- A step of `Dequeue` leaves the producers and what has been exchanged alone. -/
theorem consumerStep_frame (q : MPSCQueueNonIntrusive ι β) (pc : ConsumerPc β) :
    (q.consumerStep pc).producer = q.producer ∧ (q.consumerStep pc).exchanged = q.exchanged := by
  cases pc with
  | loadNext t =>
    unfold MPSCQueueNonIntrusive.consumerStep
    dsimp only
    cases q.next t <;> exact ⟨rfl, rfl⟩
  | idle => exact ⟨rfl, rfl⟩
  | storeTail t n => exact ⟨rfl, rfl⟩
  | delete t r => exact ⟨rfl, rfl⟩

theorem account_consumer_created (m : NodeLedger ι β) :
    (m.account .consumer).created = m.nodes.created := by
  unfold NodeLedger.account
  cases m.queue.consumer <;> rfl

variable [DecidableEq ι]

/-- A step of `Dequeue`, which then stands at `pc` or has returned there. -/
theorem Running.next (h : Running m s) {q : MPSCQueueNonIntrusive ι β} {d : DestructorPc β}
    (hpc : s.pc = .dequeue) (hq : s.memory.queue.consumerStep s.memory.queue.consumer = q)
    (hafter : afterDequeue s.memory.queue q = d)
    (hret : q.returned = s.memory.queue.returned ++ d.inHand)
    (hidle : d ≠ .dequeue → q.consumer = .idle)
    (hempty : d ≠ .dequeue → d.inHand = [] → q.exchanged.map Prod.snd = q.returned)
    (hfront : ∀ f, d ≠ .deleteFront f) (hdone : d ≠ .done) :
    ∃ t, s.step () = some t ∧ Running m t ∧ t.memory.queue = q ∧ t.pc = d := by
  obtain ⟨l, hl⟩ := h.inv
  subst hq hafter
  have hm : s.memory.step .consumer = some ⟨s.memory.queue.consumerStep s.memory.queue.consumer,
    s.memory.account .consumer⟩ := rfl
  refine ⟨_, by simp only [step, hpc]; rfl, ?_, rfl, rfl⟩
  obtain ⟨hproducer, hexchanged⟩ :=
    consumerStep_frame s.memory.queue s.memory.queue.consumer
  exact
    { inv := NodeLedger.inv_step hl hm
      quiet := fun i => by rw [hproducer]; exact h.quiet i
      exchanged := hexchanged.trans h.exchanged
      created := (account_consumer_created s.memory).trans h.created
      returned := by
        have hprev : s.memory.queue.returned = m.queue.returned ++ s.payloads := by
          have hprev := h.returned
          rw [hpc] at hprev
          simpa [DestructorPc.inHand] using hprev
        rw [hret, hprev]
      idle := hidle
      empty := hempty
      front := fun f hf => absurd hf (hfront f)
      notDone := hdone }

/-- A step of `Dequeue` that does not return. -/
theorem Running.inside (h : Running m s) {q : MPSCQueueNonIntrusive ι β} (hpc : s.pc = .dequeue)
    (hq : s.memory.queue.consumerStep s.memory.queue.consumer = q) (hc : q.consumer ≠ .idle)
    (hret : q.returned = s.memory.queue.returned) :
    ∃ t, s.step () = some t ∧ Running m t ∧ t.memory.queue = q ∧ t.pc = .dequeue := by
  refine h.next hpc hq ?_ ?_ (by simp) (by simp) (by simp) (by simp)
  · unfold afterDequeue
    cases hqc : q.consumer <;> first | rfl | exact absurd hqc hc
  · rw [hret]
    exact (List.append_nil _).symm

/-- A step of `Dequeue`. -/
theorem Running.dequeue (h : Running m s) (hpc : s.pc = .dequeue) :
    ∃ t, s.step () = some t ∧ Running m t ∧ t.work < s.work := by
  obtain ⟨l, hl⟩ := h.inv
  have hk := hl.queue.consumer
  have hfifo := hl.queue.fifo
  cases hc : s.memory.queue.consumer with
  | idle =>
    obtain ⟨t, ht, hrun, hq, htpc⟩ := h.inside
      (q := s.memory.queue.setConsumer (.loadNext s.memory.queue.tail)) hpc (by rw [hc]; rfl)
      (by simp) rfl
    refine ⟨t, ht, hrun, ?_⟩
    simp [work, hq, htpc, hpc, hc, DestructorPc.rank]
  | loadNext u =>
    rw [hc] at hk hfifo
    cases hn : s.memory.queue.next u with
    | none =>
      have hempty : s.memory.queue.exchanged.map Prod.snd = s.memory.queue.returned := by
        obtain rfl := hk
        rcases hl.queue.chain.eq_nil_or_pending hn with rfl | ⟨i, b, hi⟩
        · simpa [ConsumerPc.inHand] using hfifo
        · rw [MPSCQueueNonIntrusive.Pending, h.quiet i] at hi
          cases hi
      obtain ⟨t, ht, hrun, hq, htpc⟩ := h.next (d := .loadHead)
        (q := (s.memory.queue.touch u).setConsumer .idle) hpc
        (by rw [hc]; simp only [MPSCQueueNonIntrusive.consumerStep, hn])
        (by simp [afterDequeue]) (List.append_nil _).symm (fun _ => rfl) (fun _ _ => hempty)
        (by simp) (by simp)
      refine ⟨t, ht, hrun, ?_⟩
      simp [work, hq, htpc, hpc, hc, DestructorPc.rank]
    | some n =>
      obtain ⟨t, ht, hrun, hq, htpc⟩ := h.inside
        (q := (s.memory.queue.touch u).setConsumer (.storeTail u n)) hpc
        (by rw [hc]; simp only [MPSCQueueNonIntrusive.consumerStep, hn]) (by simp) rfl
      refine ⟨t, ht, hrun, ?_⟩
      simp [work, hq, htpc, hpc, hc, DestructorPc.rank]
  | storeTail u n =>
    obtain ⟨t, ht, hrun, hq, htpc⟩ := h.inside
      (q := ((s.memory.queue.touch n).setTail n).setConsumer (.delete u (s.memory.queue.data n)))
      hpc (by rw [hc]; rfl) (by simp) rfl
    refine ⟨t, ht, hrun, ?_⟩
    simp [work, hq, htpc, hpc, hc, DestructorPc.rank]
  | delete u r =>
    obtain ⟨t, ht, hrun, hq, htpc⟩ := h.next (d := .deleteOutput r)
      (q := (((s.memory.queue.touch u).deallocate u).logReturn r).setConsumer .idle) hpc
      (by rw [hc]; rfl) (by simp [afterDequeue]) rfl (fun _ => rfl)
      (by simp [DestructorPc.inHand]) (by simp) (by simp)
    refine ⟨t, ht, hrun, ?_⟩
    have hlen := congrArg List.length hfifo
    rw [hc] at hlen
    simp only [List.length_map, List.length_append, ConsumerPc.inHand, List.length_singleton] at hlen
    simp only [work, hq, htpc, hpc, hc, DestructorPc.rank]
    show 6 * (s.memory.queue.exchanged.length - (s.memory.queue.returned ++ [r]).length) + 5 < _
    rw [List.length_append, List.length_singleton]
    omega

/-- A statement of the destructor other than the call of `Dequeue`. -/
theorem Running.statement (h : Running m s) (hpc : s.pc ≠ .dequeue) :
    ∃ t, s.step () = some t ∧ (Running m t ∨ Finished m t) ∧ t.work < s.work := by
  obtain ⟨l, hl⟩ := h.inv
  have hidle := h.idle hpc
  have hret := h.returned
  have hempty := h.empty hpc
  cases he : s.pc with
  | dequeue => exact absurd he hpc
  | deleteOutput x =>
    rw [he] at hret
    refine ⟨{ s with payloads := s.payloads ++ [x], pc := .dequeue }, ?_, .inl ?_, ?_⟩
    · simp only [step, he]
    · exact
        { inv := h.inv
          quiet := h.quiet
          exchanged := h.exchanged
          created := h.created
          returned := by simpa [DestructorPc.inHand] using hret
          idle := by simp
          empty := by simp
          front := by simp
          notDone := by simp }
    · simp [work, he, hidle, DestructorPc.rank]
  | loadHead =>
    rw [he] at hret hempty
    refine ⟨{ s with pc := .deleteFront s.memory.queue.head }, ?_, .inl ?_, ?_⟩
    · simp only [step, he]
    · exact
        { inv := h.inv
          quiet := h.quiet
          exchanged := h.exchanged
          created := h.created
          returned := hret
          idle := fun _ => hidle
          empty := fun _ _ => hempty rfl
          front := fun f hf => (DestructorPc.deleteFront.inj hf).symm
          notDone := by simp }
    · simp [work, he, DestructorPc.rank]
  | deleteFront f =>
    obtain rfl := h.front f he
    rw [he] at hret hempty
    have hempty := hempty rfl
    have hlive := live_eq hl h.quiet hidle hempty
    have hmem : s.memory.queue.head ∈ s.memory.queue.live := by rw [hlive]; exact List.mem_cons_self
    have hnone : s.memory.queue.live.erase s.memory.queue.head = [] := by rw [hlive]; simp
    have hnodes := hl.nodes.delete hmem
    rw [hnone] at hnodes
    refine ⟨{ s with
      memory := ⟨(s.memory.queue.touch s.memory.queue.head).deallocate s.memory.queue.head,
        s.memory.nodes.delete s.memory.queue.head⟩
      pc := .done }, ?_, .inr ?_, ?_⟩
    · simp only [step, he]
    · exact
        { done := rfl
          fault := (MPSCQueueNonIntrusive.touch_fault_of_mem hmem).trans hl.queue.fault
          live := hnone
          created := h.created
          deleted := hnodes.all_deleted
          payloads := by
            rw [← h.exchanged, hempty, hret]
            simp [DestructorPc.inHand] }
    · simp [work, he, DestructorPc.rank]
  | done => exact absurd he h.notDone

/-- Started with nobody else at work, the destructor comes to its end. -/
theorem exists_finished {l : List ℕ} (h : m.Inv l) (hp : ∀ i, m.queue.producer i = .idle)
    (hc : m.queue.consumer = .idle) :
    ∃ t, (destructor ι β).Leads (start m) t ∧ Finished m t := by
  have hstart : Running m (start m) :=
    { inv := ⟨l, h⟩
      quiet := hp
      exchanged := rfl
      created := rfl
      returned := by simp [start, DestructorPc.inHand]
      idle := fun _ => hc
      empty := fun hne => absurd rfl hne
      front := fun f hf => by cases hf
      notDone := by simp [start] }
  have hnext : ∀ s, (Running m s ∨ Finished m s) → ¬ Finished m s →
      ∃ a t, (destructor ι β).step s a = some t ∧ (Running m t ∨ Finished m t) ∧
        t.work < s.work := by
    intro s hs hG
    have hrun := hs.resolve_right hG
    by_cases hpc : s.pc = .dequeue
    · obtain ⟨t, ht, hrun, hlt⟩ := hrun.dequeue hpc
      exact ⟨(), t, ht, .inl hrun, hlt⟩
    · obtain ⟨t, ht, hrun, hlt⟩ := hrun.statement hpc
      exact ⟨(), t, ht, hrun, hlt⟩
  obtain ⟨t, ht, -, hdone⟩ := Machine.exists_leads_of_measure work hnext (start m) (.inl hstart)
  exact ⟨t, ht, hdone⟩

end Destructor

/-- With no call of `Enqueue` in flight, the payloads exchanged are those of all calls. -/
theorem MPSCQueueNonIntrusive.perm_exchanged {ι : Type v} {β : Type u} [DecidableEq ι]
    {s : MPSCQueueNonIntrusive ι β} (h : (mpscQueueNonIntrusive ι β).Reachable s)
    (hp : ∀ i, s.producer i = .idle) : s.enqueued.Perm s.exchanged := by
  refine perm_of_filter_eq fun i => ?_
  have hi : s.calling i = [] := by
    unfold MPSCQueueNonIntrusive.calling
    rw [hp i]
  rw [(inv_of_mpscQueueNonIntrusive h).2 i, hi, List.append_nil]

/-- **No node is used after it has been deleted.** Every access is to an allocated node, no pointer
dangles, and no node is deleted twice. Run with no `Enqueue` in flight, the destructor deletes exactly
the payloads that have not been dequeued, and then every node has been deleted exactly once. -/
theorem nonIntrusive_reclaimed (ι : Type v) (β : Type u) [DecidableEq ι] :
    ∀ s, (nodeLedger ι β).Reachable s →
      s.queue.fault = false ∧ s.queue.NoDangling ∧ (∀ k, s.nodes.deletions k ≤ 1) ∧
      ((∀ i, s.queue.producer i = .idle) → s.queue.consumer = .idle →
        ∃ t, (destructor ι β).Leads (.start s) t ∧ t.pc = .done ∧
          t.memory.queue.fault = false ∧ t.memory.queue.live = [] ∧
          (s.queue.enqueued.map Prod.snd).Perm (s.queue.returned ++ t.payloads) ∧
          t.memory.nodes.created = s.nodes.created ∧
          ∀ k < t.memory.nodes.created, t.memory.nodes.deletions k = 1) := by
  intro s hs
  obtain ⟨l, hl⟩ := inv_of_nodeLedger hs
  refine ⟨hl.queue.fault, hl.queue.noDangling hl.complete, hl.nodes.le_one, fun hp hc => ?_⟩
  obtain ⟨t, ht, hdone⟩ := Destructor.exists_finished hl hp hc
  have hqueue : (mpscQueueNonIntrusive ι β).Reachable s.queue := by
    refine hs.map NodeLedger.queue id ?_ fun s a s' hs => ?_
    · rintro _ ⟨a, d, rfl⟩
      exact ⟨a, d, rfl⟩
    · obtain ⟨q, hq, rfl⟩ := Option.map_eq_some_iff.mp hs
      exact hq
  refine ⟨t, ht, hdone.done, hdone.fault, hdone.live, ?_, hdone.created, hdone.deleted⟩
  rw [← hdone.payloads]
  exact (MPSCQueueNonIntrusive.perm_exchanged hqueue hp).map Prod.snd

/-- Two payloads, the first dequeued: the destructor deletes the second. The node of the second stands
at the address of the first node of the queue. -/
theorem nonIntrusive_reclaimed_two : ∃ (s : NodeLedger Unit ℕ) (t : Destructor Unit ℕ),
    s.queue.fault = false ∧ (destructor Unit ℕ).Leads (.start s) t ∧
      [10, 20].Perm ([10] ++ t.payloads) ∧ t.memory.queue.live = [] := by
  obtain ⟨s, hs, hp, hc, he, hr⟩ : ∃ s, (nodeLedger Unit ℕ).run ⟨.initial Unit 0 0, .first⟩
      [.enqueue () 10 1, .producer (), .producer (), .consumer, .consumer, .consumer, .consumer,
        .enqueue () 20 0, .producer (), .producer ()] = some s ∧
      (∀ i, s.queue.producer i = .idle) ∧ s.queue.consumer = .idle ∧
      s.queue.enqueued.map Prod.snd = [10, 20] ∧ s.queue.returned = [10] :=
    ⟨_, rfl, fun _ => rfl, rfl, rfl, rfl⟩
  have h := nonIntrusive_reclaimed Unit ℕ s (Machine.Reachable.run (.init ⟨0, 0, rfl⟩) hs)
  obtain ⟨t, ht, -, -, hlive, hperm, -⟩ := h.2.2.2 hp hc
  rw [he, hr] at hperm
  exact ⟨s, t, h.1, ht, hperm, hlive⟩

end SelfStudy.Threading
