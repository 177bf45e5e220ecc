import SelfStudy.Lib.Progress
import SelfStudy.Threading.DequeueCalls

/-!
# Everything enqueued comes out

The consumer calls `Dequeue` again and again, and whoever is inside `Enqueue` gets its turns. Then
every element whose `Enqueue` has exchanged `_head` is returned in the end, although calls of
`Dequeue` may give nothing in between and more elements may come all the time.

What a call waits for is always the link behind `_tail`. It is there, or some call of `Enqueue` is
about to store it, or, in the intrusive queue, `_tail` is the only node and `Dequeue` enqueues the
dummy behind it. A link that is there stays until `_tail` has moved over it.
-/

namespace SelfStudy.Threading

open Lib

universe u v

/-! ## The non-intrusive queue -/

namespace NonIntrusive

/-- The steps to the return of a call that finds a link. -/
def ConsumerPc.toReturn {β : Type u} : ConsumerPc β → ℕ
  | .idle => 3
  | .loadNext _ => 2
  | .storeTail _ _ => 1
  | .delete _ _ => 0

end NonIntrusive

namespace MPSCQueueNonIntrusive

open NonIntrusive

variable {ι : Type v} {β : Type u} [DecidableEq ι] {s s' : MPSCQueueNonIntrusive ι β} {l : List ℕ}
  {n : ℕ}

/-- After `n` results the next one has been taken off the queue, or can be. -/
structure Ready (n : ℕ) (s : MPSCQueueNonIntrusive ι β) : Prop where
  reachable : (mpscQueueNonIntrusive ι β).Reachable s
  returned : s.returned.length = n
  linked : (∃ t r, s.consumer = .delete t r) ∨ ∃ b, s.next s.tail = some b

/-- After `n` results the next one waits for producer `i` to store its link. -/
structure Waiting (n : ℕ) (i : ι) (s : MPSCQueueNonIntrusive ι β) : Prop where
  reachable : (mpscQueueNonIntrusive ι β).Reachable s
  returned : s.returned.length = n
  consumer : ∀ t r, s.consumer ≠ .delete t r
  producer : ∃ b, s.producer i = .link b s.tail

/-- The steps of the producers leave the consumer alone and remove no link of the chain. -/
theorem Inv.producers (h : s.Inv l) {a : Action ι β} (ha : a ≠ .consumer)
    (hs : s.step a = some s') :
    s'.consumer = s.consumer ∧ s'.tail = s.tail ∧ s'.returned = s.returned ∧
      ∀ b, s.next s.tail = some b → s'.next s.tail = some b := by
  cases a with
  | consumer => exact absurd rfl ha
  | enqueue i x a =>
    simp only [step, Option.ite_none_right_eq_some, Option.some.injEq] at hs
    obtain ⟨⟨-, hlive⟩, rfl⟩ := hs
    refine ⟨rfl, rfl, rfl, fun b hb => ?_⟩
    have hne : s.tail ≠ a := fun e => hlive (e ▸ h.live _ List.mem_cons_self)
    show (s.allocate a x).next s.tail = some b
    rw [next_allocate, Function.update_of_ne hne, hb]
  | producer i =>
    have hs : s.producerStep i (s.producer i) = some s' := hs
    cases hi : s.producer i with
    | idle => rw [hi] at hs; cases hs
    | exchange m =>
      rw [hi] at hs
      exact Option.some.inj hs ▸ ⟨rfl, rfl, rfl, fun b hb => hb⟩
    | link m p =>
      rw [hi] at hs
      refine Option.some.inj hs ▸ ⟨rfl, rfl, rfl, fun b hb => ?_⟩
      -- the link that is stored has been null
      have hne : s.tail ≠ p := by
        rintro rfl
        rw [(h.chain.pending i _ m hi).2] at hb
        cases hb
      show (s.setNext p (some m)).next s.tail = some b
      rw [next_setNext, Function.update_of_ne hne, hb]

theorem exchanged_prefix {a : Action ι β} (hs : s.step a = some s') :
    s.exchanged <+: s'.exchanged := by
  cases step_cases hs with
  | exchange => exact List.prefix_append _ _
  | _ => exact List.prefix_rfl

theorem Ready.producers (h : s.Ready n) {a : Action ι β} (ha : a ≠ .consumer)
    (hs : s.step a = some s') : s'.Ready n ∧ s'.consumer = s.consumer := by
  obtain ⟨⟨l, hl⟩, -⟩ := inv_of_mpscQueueNonIntrusive h.reachable
  obtain ⟨hc, ht, hr, hn⟩ := hl.producers ha hs
  refine ⟨⟨h.reachable.step trivial hs, hr ▸ h.returned, ?_⟩, hc⟩
  rw [hc, ht]
  exact h.linked.imp_right fun ⟨b, hb⟩ => ⟨b, hn b hb⟩

theorem Ready.consumer (h : s.Ready n)
    (hs : (mpscQueueNonIntrusive ι β).step s .consumer = some s') :
    n < s'.returned.length ∨ s'.Ready n ∧ s'.consumer.toReturn < s.consumer.toReturn := by
  obtain ⟨⟨l, hl⟩, -⟩ := inv_of_mpscQueueNonIntrusive h.reachable
  have hk := hl.consumer
  have hreach := h.reachable.step trivial hs
  obtain rfl : s.consumerStep s.consumer = s' := Option.some.inj hs
  have hlinked := h.linked
  have hret := h.returned
  cases hc : s.consumer with
  | idle =>
    obtain ⟨t, r, hd⟩ | hb := hlinked
    · rw [hc] at hd
      cases hd
    · rw [hc] at hreach
      exact .inr ⟨⟨hreach, hret, .inr hb⟩, by simp [consumerStep, ConsumerPc.toReturn]⟩
  | loadNext t =>
    rw [hc] at hk
    obtain rfl : t = s.tail := hk
    obtain ⟨t, r, hd⟩ | ⟨b, hb⟩ := hlinked
    · rw [hc] at hd
      cases hd
    · rw [hc] at hreach
      have hstep : s.consumerStep (.loadNext s.tail) =
          (s.touch s.tail).setConsumer (.storeTail s.tail b) := by
        simp only [consumerStep, hb]
      rw [hstep] at hreach ⊢
      exact .inr ⟨⟨hreach, hret, .inr ⟨b, hb⟩⟩, by simp [ConsumerPc.toReturn]⟩
  | storeTail t b =>
    rw [hc] at hreach
    exact .inr ⟨⟨hreach, hret, .inl ⟨t, _, rfl⟩⟩, by simp [consumerStep, ConsumerPc.toReturn]⟩
  | delete t r =>
    left
    show n < (s.returned ++ [r]).length
    rw [List.length_append, hret]
    exact Nat.lt_succ_self n

/-- A step that is not of producer `i` leaves it waiting. -/
theorem Waiting.step {i : ι} (h : s.Waiting n i) {a : Action ι β} (ha : a ≠ .producer i)
    (hs : s.step a = some s') : s'.Waiting n i := by
  obtain ⟨⟨l, hl⟩, -⟩ := inv_of_mpscQueueNonIntrusive h.reachable
  obtain ⟨b, hi⟩ := h.producer
  have hnext : s.next s.tail = none := (hl.chain.pending i _ b hi).2
  have hreach := h.reachable.step trivial hs
  cases a with
  | consumer =>
    have hk := hl.consumer
    have hnot := h.consumer
    obtain rfl : s.consumerStep s.consumer = s' := Option.some.inj hs
    cases hc : s.consumer with
    | idle =>
      rw [hc] at hreach
      exact ⟨hreach, h.returned, by simp [consumerStep], b, hi⟩
    | loadNext t =>
      rw [hc] at hk hreach
      obtain rfl : t = s.tail := hk
      have hstep : s.consumerStep (.loadNext s.tail) = (s.touch s.tail).setConsumer .idle := by
        simp only [consumerStep, hnext]
      rw [hstep] at hreach ⊢
      exact ⟨hreach, h.returned, by simp, b, hi⟩
    | storeTail t m =>
      rw [hc] at hk
      obtain ⟨rfl, hm⟩ := hk
      rw [hnext] at hm
      cases hm
    | delete t r => exact absurd hc (hnot t r)
  | producer j =>
    obtain ⟨hc, ht, hr, -⟩ := hl.producers (by simp) hs
    refine ⟨hreach, hr ▸ h.returned, hc ▸ h.consumer, b, ?_⟩
    have hne : i ≠ j := fun e => ha (by rw [e])
    have hs : s.producerStep j (s.producer j) = some s' := hs
    rw [ht, ← hi]
    cases hj : s.producer j with
    | idle => rw [hj] at hs; cases hs
    | exchange m => rw [hj] at hs; exact Option.some.inj hs ▸ Function.update_of_ne hne _ _
    | link m p => rw [hj] at hs; exact Option.some.inj hs ▸ Function.update_of_ne hne _ _
  | enqueue j x c =>
    obtain ⟨hc, ht, hr, -⟩ := hl.producers (by simp) hs
    refine ⟨hreach, hr ▸ h.returned, hc ▸ h.consumer, b, ?_⟩
    obtain ⟨⟨hj, -⟩, hs⟩ := Option.ite_none_right_eq_some.mp hs
    obtain rfl := Option.some.inj hs
    have hne : i ≠ j := by
      rintro rfl
      rw [hi] at hj
      cases hj
    exact (Function.update_of_ne hne _ _).trans hi

theorem Waiting.link {i : ι} (h : s.Waiting n i) :
    ∃ s', s.step (.producer i) = some s' ∧ s'.Ready n := by
  obtain ⟨b, hi⟩ := h.producer
  have hstep : s.step (.producer i) =
      some (((s.touch s.tail).setNext s.tail (some b)).setProducer i .idle) := by
    show s.producerStep i (s.producer i) = _
    rw [hi]
    rfl
  refine ⟨_, hstep, h.reachable.step (a := .producer i) trivial hstep, h.returned, .inr ⟨b, ?_⟩⟩
  show (s.setNext s.tail (some b)).next s.tail = some b
  rw [next_setNext, Function.update_self]

/-- What is left in the queue is ready or waits for a producer. -/
theorem ready_or_waiting (hr : (mpscQueueNonIntrusive ι β).Reachable s)
    (hn : s.returned.length = n) (hlt : n < (s.exchanged.map Prod.snd).length) :
    s.Ready n ∨ ∃ i, s.Waiting n i := by
  obtain ⟨⟨l, hl⟩, -⟩ := inv_of_mpscQueueNonIntrusive hr
  by_cases hd : ∃ t r, s.consumer = .delete t r
  · exact .inl ⟨hr, hn, .inl hd⟩
  have hnot : ∀ t r, s.consumer ≠ .delete t r := fun t r hc => hd ⟨t, r, hc⟩
  have hl' : l ≠ [] := by
    rintro rfl
    rw [hl.fifo] at hlt
    have hin : s.consumer.inHand = [] := by
      cases hc : s.consumer <;> first | rfl | exact absurd hc (hnot _ _)
    rw [hin, List.append_nil, List.map_nil, List.append_nil, hn] at hlt
    exact lt_irrefl _ hlt
  cases hnext : s.next s.tail with
  | some b => exact .inl ⟨hr, hn, .inr ⟨b, hnext⟩⟩
  | none =>
    obtain ⟨i, b, hi⟩ := (hl.chain.eq_nil_or_pending hnext).resolve_left hl'
    exact .inr ⟨i, hr, hn, hnot, b, hi⟩

variable {sched : ℕ → Action ι β}

theorem served (hs : (mpscQueueNonIntrusive ι β).Reachable s)
    (hc : Machine.Fair (· = Action.consumer) sched)
    (hp : ∀ i, Machine.Fair (· = Action.producer i) sched) (n : ℕ) :
    (mpscQueueNonIntrusive ι β).LeadsTo s sched
      (fun x => x.returned.length = n ∧ n < (x.exchanged.map Prod.snd).length)
      fun x => n < x.returned.length := by
  have hready : (mpscQueueNonIntrusive ι β).LeadsTo s sched (Ready n)
      fun x => n < x.returned.length := by
    refine .of_fair_measure (A := (· = Action.consumer)) (fun x => x.consumer.toReturn)
      (fun t s' ht hs' => ?_) (fun t ha ht => ?_) hc
    · by_cases ha : sched t = .consumer
      · exact (ht.consumer (ha ▸ hs')).imp_right fun h => ⟨h.1, h.2.le⟩
      · obtain ⟨h, he⟩ := ht.producers ha hs'
        exact .inr ⟨h, by rw [he]⟩
    · have ha : sched t = .consumer := ha
      rw [ha]
      exact ⟨_, rfl, ht.consumer rfl⟩
  have hwaiting : ∀ i, (mpscQueueNonIntrusive ι β).LeadsTo s sched (Waiting n i) (Ready n) := by
    intro i
    refine .of_fair (A := (· = Action.producer i)) (fun t s' ht hs' => ?_) (fun t ha ht => ?_)
      (hp i)
    · by_cases ha : sched t = .producer i
      · obtain ⟨s'', hs'', hready⟩ := ht.link
        rw [ha] at hs'
        exact .inr (Option.some.inj (hs''.symm.trans hs') ▸ hready)
      · exact .inl (ht.step ha hs')
    · have ha : sched t = .producer i := ha
      rw [ha]
      exact ht.link
  refine (Machine.LeadsTo.of_imp fun t ht => ?_).trans
    (hready.or (.of_exists fun i => (hwaiting i).trans hready))
  exact ready_or_waiting (Machine.trace_reachable hs t) ht.1 ht.2

end MPSCQueueNonIntrusive

/-- **Delivery.** The consumer and every producer get their turns again and again. Then whatever has
been exchanged as the `k`th is returned as the `k`th in the end. -/
theorem nonIntrusive_delivers (ι : Type v) (β : Type u) [DecidableEq ι]
    (s : MPSCQueueNonIntrusive ι β) (sched : ℕ → NonIntrusive.Action ι β)
    (hs : (mpscQueueNonIntrusive ι β).init s)
    (hc : Machine.Fair (· = NonIntrusive.Action.consumer) sched)
    (hp : ∀ i, Machine.Fair (· = NonIntrusive.Action.producer i) sched) :
    ∀ (t k : ℕ) (i : ι) (x : β),
      ((mpscQueueNonIntrusive ι β).trace s sched t).exchanged[k]? = some (i, x) →
      ∃ t' ≥ t, ((mpscQueueNonIntrusive ι β).trace s sched t').returned[k]? = some x := by
  intro t k i x hk
  have hreach : (mpscQueueNonIntrusive ι β).Reachable s := .init hs
  refine Machine.delivers (fun t => ?_) (fun t t' h => ?_)
    (MPSCQueueNonIntrusive.served hreach hc hp) ?_
  · obtain ⟨⟨l, hl⟩, -⟩ := inv_of_mpscQueueNonIntrusive (Machine.trace_reachable hreach t)
    rw [hl.fifo, List.append_assoc]
    exact List.prefix_append _ _
  · refine List.IsPrefix.map _ ?_
    exact Machine.trace_relation
      (R := fun x y : MPSCQueueNonIntrusive ι β => x.exchanged <+: y.exchanged)
      (fun _ => List.prefix_rfl) (fun _ _ _ => List.IsPrefix.trans)
      (fun t s' hs' => MPSCQueueNonIntrusive.exchanged_prefix hs') h
  · rw [List.getElem?_map, hk]
    rfl

/-- A producer and the consumer take turns. -/
theorem nonIntrusive_delivers_one :
    ∃ t, ((mpscQueueNonIntrusive Unit ℕ).trace (.initial Unit 0 0)
      (fun t => if t = 0 then .enqueue () 5 1 else if t % 2 = 1 then .producer () else .consumer)
        t).returned[0]? = some 5 := by
  obtain ⟨t, -, ht⟩ := nonIntrusive_delivers Unit ℕ (.initial Unit 0 0)
    (fun t => if t = 0 then .enqueue () 5 1 else if t % 2 = 1 then .producer () else .consumer)
    ⟨0, 0, rfl⟩ (fun t => ⟨2 * t + 2, by omega, by simp⟩)
    (fun _ => fun t => ⟨2 * t + 1, by omega, by simp⟩) 2 0 () 5 rfl
  exact ⟨t, ht⟩

/-! ## The intrusive queue -/

namespace Intrusive

/-- The steps to the return of a call that finds a link, for a node that is not the dummy. -/
def DequeuePc.toReturn : DequeuePc → ℕ
  | .skip _ => 0
  | .storeTail _ _ => 1
  | .loadNext _ | .loadAgain _ | .reload _ => 2
  | .idle => 3
  | .loadHead _ => 4
  | .enqueueDummy _ pc => 2 + pc.left

/-- The steps to the store that passes the dummy by. -/
def DequeuePc.toSkip : DequeuePc → ℕ
  | .idle => 2
  | .loadNext _ => 1
  | _ => 0

/-- The steps until the dummy is behind the only node. -/
def DequeuePc.toDummy : DequeuePc → ℕ
  | .enqueueDummy _ pc => pc.left
  | .loadHead _ => 4
  | .loadNext _ | .loadAgain _ => 5
  | .idle => 6
  | .reload _ => 7
  | .skip _ | .storeTail _ _ => 0

end Intrusive

namespace MPSCQueueIntrusive

open Intrusive

variable {ι : Type v} {s s' : MPSCQueueIntrusive ι} {l : List ℕ}

/-- While its link is null, the consumer does not leave its node. -/
theorem Inv.stays (h : s.Inv l) (hn : s.next s.tail = none)
    (hs : s.consumerStep s.consumer = some s') :
    s'.tail = s.tail ∧ s'.returned = s.returned ∧ s'.dummyPtr = s.dummyPtr ∧
      s'.producer = s.producer := by
  have hk := h.consumer
  have hstep := consumerStep_cases hs
  generalize s.consumer = pc at hk hstep
  cases hstep with
  | skip =>
    obtain ⟨-, hb⟩ := hk
    rw [hn] at hb
    cases hb
  | storeTail =>
    obtain ⟨⟨rfl, -⟩, hb⟩ := hk
    rw [hn] at hb
    cases hb
  | @enqueueDummy a pc q pc' hq =>
    cases pc with
    | idle => cases hq
    | clear m => obtain ⟨rfl, rfl⟩ := Prod.mk.inj (Option.some.inj hq); exact ⟨rfl, rfl, rfl, rfl⟩
    | exchange m =>
      obtain ⟨rfl, rfl⟩ := Prod.mk.inj (Option.some.inj hq)
      exact ⟨rfl, rfl, rfl, rfl⟩
    | link m p => obtain ⟨rfl, rfl⟩ := Prod.mk.inj (Option.some.inj hq); exact ⟨rfl, rfl, rfl, rfl⟩
  | _ => exact ⟨rfl, rfl, rfl, rfl⟩

/-- Where the link of the consumer's node is null, it is the only node, or some call of `Enqueue` is
about to store the link. -/
theorem Inv.singleton_or_pending (h : s.Inv l) (hn : s.next s.tail = none) :
    l = [s.tail] ∨ ∃ k b, s.enqueuing k = .link b s.tail := by
  have hfirst := h.calls.first
  have hchain := h.calls.chain
  cases l with
  | nil => cases hfirst
  | cons a l =>
    obtain rfl : a = s.tail := by simpa using hfirst
    exact (hchain.eq_nil_or_pending hn).imp_left fun e => by rw [e]

variable [DecidableEq ι] {n : ℕ} {d : Bool}

/-- The steps of the producers leave the consumer alone and remove no link of the chain. -/
theorem Inv.producers (h : s.Inv l) {a : Action ι} (ha : a ≠ .consumer) (hs : s.step a = some s') :
    s'.consumer = s.consumer ∧ s'.tail = s.tail ∧ s'.returned = s.returned ∧
      s'.dummyPtr = s.dummyPtr ∧ ∀ b, s.next s.tail = some b → s'.next s.tail = some b := by
  cases a with
  | consumer => exact absurd rfl ha
  | enqueue i m =>
    obtain ⟨-, hs⟩ := Option.ite_none_right_eq_some.mp hs
    exact Option.some.inj hs ▸ ⟨rfl, rfl, rfl, rfl, fun b hb => hb⟩
  | producer i =>
    obtain ⟨⟨q, x⟩, hq, rfl⟩ := Option.map_eq_some_iff.mp hs
    obtain ⟨l', -, hJ⟩ := h.calls.step (k := some i) hq
    exact ⟨hJ.consumer, hJ.tail, hJ.returned, hJ.dummyPtr, fun b => hJ.next _ _ h.calls.tail_mem⟩

/-- Somewhere in a run, after `n` results; `d` tells whether `_tail` is the dummy. -/
structure Stage (n : ℕ) (d : Bool) (s : MPSCQueueIntrusive ι) : Prop where
  reachable : (mpscQueueIntrusive ι).Reachable s
  returned : s.returned.length = n
  dummy : d = true ↔ s.tail = s.dummyPtr

/-- The link of the consumer's node is there. -/
structure Ready (n : ℕ) (d : Bool) (s : MPSCQueueIntrusive ι) : Prop extends Stage n d s where
  linked : ∃ b, s.next s.tail = some b

/-- Producer `i` is about to store the link of the consumer's node. -/
structure Waiting (n : ℕ) (d : Bool) (i : ι) (s : MPSCQueueIntrusive ι) : Prop
    extends Stage n d s where
  producer : ∃ b, s.producer i = .link b s.tail

/-- No producer is behind the consumer's node, which is not the dummy. -/
structure Alone (n : ℕ) (s : MPSCQueueIntrusive ι) : Prop extends Stage n false s where
  null : s.next s.tail = none
  producer : ∀ i b, s.producer i ≠ .link b s.tail

theorem Stage.cases (h : s.Stage n false) :
    s.Ready n false ∨ (∃ i, s.Waiting n false i) ∨ s.Alone n := by
  cases hn : s.next s.tail with
  | some b => exact .inl ⟨h, b, hn⟩
  | none =>
    by_cases hw : ∃ i b, s.producer i = .link b s.tail
    · obtain ⟨i, hi⟩ := hw
      exact .inr (.inl ⟨i, h, hi⟩)
    · exact .inr (.inr ⟨h, hn, fun i b hi => hw ⟨i, b, hi⟩⟩)

theorem Stage.producers (h : s.Stage n d) (hl : s.Inv l) {a : Action ι} (ha : a ≠ .consumer)
    (hs : s.step a = some s') : s'.Stage n d := by
  obtain ⟨-, ht, hr, hd, -⟩ := hl.producers ha hs
  exact ⟨h.reachable.step trivial hs, hr ▸ h.returned, by rw [ht, hd]; exact h.dummy⟩

theorem Stage.stays (h : s.Stage n d) (hl : s.Inv l) (hn : s.next s.tail = none)
    (hs : (mpscQueueIntrusive ι).step s .consumer = some s') : s'.Stage n d := by
  obtain ⟨ht, hr, hd, -⟩ := hl.stays hn hs
  exact ⟨h.reachable.step trivial hs, hr ▸ h.returned, by rw [ht, hd]; exact h.dummy⟩

theorem Ready.producers (h : s.Ready n d) {a : Action ι} (ha : a ≠ .consumer)
    (hs : s.step a = some s') : s'.Ready n d ∧ s'.consumer = s.consumer := by
  obtain ⟨l, hl⟩ := inv_of_mpscQueueIntrusive h.reachable
  obtain ⟨hc, ht, -, -, hn⟩ := hl.producers ha hs
  obtain ⟨b, hb⟩ := h.linked
  exact ⟨⟨h.toStage.producers hl ha hs, b, ht ▸ hn b hb⟩, hc⟩

/-- A node that is not the dummy, with its link there, is returned. -/
theorem Ready.returns (h : s.Ready n false)
    (hs : (mpscQueueIntrusive ι).step s .consumer = some s') :
    n < s'.returned.length ∨
      s'.Ready n false ∧ s'.consumer.toReturn < s.consumer.toReturn := by
  obtain ⟨l, hl⟩ := inv_of_mpscQueueIntrusive h.reachable
  have hk := hl.consumer
  have hreach := h.reachable.step trivial hs
  have hret := h.returned
  have hd : s.tail ≠ s.dummyPtr := fun e => by simpa using h.dummy.mpr e
  obtain ⟨b, hb⟩ := h.linked
  have hstage : ∀ c, (s.setConsumer c).consumer.toReturn < s.consumer.toReturn →
      s' = s.setConsumer c → n < s'.returned.length ∨
        s'.Ready n false ∧ s'.consumer.toReturn < s.consumer.toReturn := by
    rintro c hlt rfl
    exact .inr ⟨⟨⟨hreach, hret, h.dummy⟩, b, hb⟩, hlt⟩
  have hstep := consumerStep_cases (show s.consumerStep s.consumer = some s' from hs)
  generalize hc : s.consumer = pc at hk hstep hstage ⊢
  cases hstep with
  | loadTail => exact hstage _ (by simp [DequeuePc.toReturn]) rfl
  | empty he => exact absurd (hk.symm.trans he) hd
  | loadDummy he => exact absurd (hk.symm.trans he) hd
  | @load t hne =>
    obtain rfl : t = s.tail := hk
    exact hstage _ (by simp [hb, afterLoad, DequeuePc.toReturn]) rfl
  | skip => exact absurd hk.1 hd
  | @loadAgain t =>
    obtain ⟨rfl, -⟩ := hk
    exact hstage _ (by simp [hb, afterLoad, DequeuePc.toReturn]) rfl
  | @storeTail t m =>
    left
    show n < (s.returned ++ [t]).length
    rw [List.length_append, hret]
    exact Nat.lt_succ_self n
  | @loadHead t ht =>
    -- the node has one behind it, so it is not `_head`
    obtain ⟨rfl, -⟩ := hk
    obtain ⟨l', rfl⟩ := hl.exists_cons hb
    cases hl.eq_singleton ht
  | notHead => exact hstage _ (by simp [DequeuePc.toReturn]) rfl
  | @enqueueDummy t pc q x hq =>
    obtain ⟨l', -, hJ⟩ := hl.calls.step (k := none) (by rw [enqueuing, hc]; exact hq)
    have hlt := enqueueStep_left hq
    refine .inr ⟨⟨⟨hreach, ?_, ?_⟩, b, ?_⟩, ?_⟩
    · exact (congrArg List.length hJ.returned).trans hret
    · show false = true ↔ q.tail = q.dummyPtr
      rw [hJ.tail, hJ.dummyPtr]
      exact h.dummy
    · show q.next q.tail = some b
      rw [hJ.tail]
      exact hJ.next _ _ hl.calls.tail_mem hb
    · show (afterEnqueue t x).toReturn < 2 + pc.left
      cases x <;> simp only [afterEnqueue, DequeuePc.toReturn, EnqueuePc.left] at hlt ⊢ <;> omega
  | reload => exact hstage _ (by simp [DequeuePc.toReturn]) rfl
  | giveUp hn =>
    obtain ⟨rfl, -⟩ := hk
    rw [hb] at hn
    cases hn

/-- The dummy, with its link there, is passed by. -/
theorem Ready.skips (h : s.Ready n true)
    (hs : (mpscQueueIntrusive ι).step s .consumer = some s') :
    s'.Stage n false ∨ s'.Ready n true ∧ s'.consumer.toSkip < s.consumer.toSkip := by
  obtain ⟨l, hl⟩ := inv_of_mpscQueueIntrusive h.reachable
  have hk := hl.consumer
  have hreach := h.reachable.step trivial hs
  have hret := h.returned
  have hd : s.tail = s.dummyPtr := h.dummy.mp rfl
  obtain ⟨b, hb⟩ := h.linked
  have hstage : ∀ c, c.toSkip < s.consumer.toSkip → s' = s.setConsumer c →
      s'.Stage n false ∨ s'.Ready n true ∧ s'.consumer.toSkip < s.consumer.toSkip := by
    rintro c hlt rfl
    exact .inr ⟨⟨⟨hreach, hret, h.dummy⟩, b, hb⟩, hlt⟩
  have hstep := consumerStep_cases (show s.consumerStep s.consumer = some s' from hs)
  generalize hc : s.consumer = pc at hk hstep hstage ⊢
  cases hstep with
  | loadTail => exact hstage _ (by simp [DequeuePc.toSkip]) rfl
  | @empty t _ hn =>
    obtain rfl : t = s.tail := hk
    rw [hb] at hn
    cases hn
  | loadDummy => exact hstage _ (by simp [DequeuePc.toSkip]) rfl
  | load hne => exact absurd (hk.trans hd) hne
  | @skip m =>
    obtain ⟨l', hl'⟩ := hl.skip hc
    exact .inl ⟨hreach, hret, by simpa using hl'.consumer.2⟩
  | loadAgain => exact absurd (hk.1.trans hd) hk.2
  | storeTail => exact absurd (hk.1.1.trans hd) hk.1.2
  | loadHead => exact absurd (hk.1.trans hd) hk.2
  | notHead => exact absurd (hk.1.trans hd) hk.2
  | enqueueDummy => exact absurd (hk.1.1.trans hd) hk.1.2
  | reload => exact absurd (hk.1.trans hd) hk.2
  | giveUp => exact absurd (hk.1.trans hd) hk.2

/-- A step that is not of producer `i` leaves it waiting. -/
theorem Waiting.step {i : ι} (h : s.Waiting n d i) {a : Action ι} (ha : a ≠ .producer i)
    (hs : (mpscQueueIntrusive ι).step s a = some s') : s'.Waiting n d i := by
  obtain ⟨l, hl⟩ := inv_of_mpscQueueIntrusive h.reachable
  obtain ⟨b, hi⟩ := h.producer
  have hnext : s.next s.tail = none := (hl.calls.chain.pending (some i) _ b hi).2
  cases a with
  | consumer =>
    obtain ⟨ht, -, -, hp⟩ := hl.stays hnext hs
    exact ⟨h.toStage.stays hl hnext hs, b, by rw [hp, ht, hi]⟩
  | producer j =>
    refine ⟨h.toStage.producers (a := .producer j) hl (by simp) hs, b, ?_⟩
    obtain ⟨-, ht, -⟩ := hl.producers (a := .producer j) (by simp) hs
    have hne : i ≠ j := fun e => ha (by rw [e])
    obtain ⟨⟨q, x⟩, hq, rfl⟩ := Option.map_eq_some_iff.mp hs
    rw [ht, ← hi]
    exact (Function.update_of_ne hne _ _).trans (congrFun (enqueueStep_keeps hq).1.producer i)
  | enqueue j m =>
    refine ⟨h.toStage.producers (a := .enqueue j m) hl (by simp) hs, b, ?_⟩
    obtain ⟨⟨hj, -⟩, hs⟩ := Option.ite_none_right_eq_some.mp hs
    obtain rfl := Option.some.inj hs
    have hne : i ≠ j := by
      rintro rfl
      rw [hi] at hj
      cases hj
    exact (Function.update_of_ne hne _ _).trans hi

theorem Waiting.link {i : ι} (h : s.Waiting n d i) :
    ∃ s', (mpscQueueIntrusive ι).step s (.producer i) = some s' ∧ s'.Ready n d := by
  obtain ⟨l, hl⟩ := inv_of_mpscQueueIntrusive h.reachable
  obtain ⟨b, hi⟩ := h.producer
  have hstep : (mpscQueueIntrusive ι).step s (.producer i) =
      some ((s.setNext s.tail (some b)).setProducer i .idle) := by
    show (s.enqueueStep (s.producer i)).map _ = _
    rw [hi]
    rfl
  refine ⟨_, hstep, h.toStage.producers (a := .producer i) hl (by simp) hstep, b, ?_⟩
  exact Function.update_self ..

theorem Alone.producers (h : s.Alone n) {a : Action ι} (ha : a ≠ .consumer)
    (hs : s.step a = some s') :
    s'.Ready n false ∨ (∃ i, s'.Waiting n false i) ∨
      s'.Alone n ∧ s'.consumer.toDummy = s.consumer.toDummy := by
  obtain ⟨l, hl⟩ := inv_of_mpscQueueIntrusive h.reachable
  refine (h.toStage.producers hl ha hs).cases.imp_right (Or.imp_right fun h' => ⟨h', ?_⟩)
  rw [(hl.producers ha hs).1]

/-- With nobody behind the consumer's node, the dummy comes to stand there. -/
theorem Alone.consumer (h : s.Alone n)
    (hs : (mpscQueueIntrusive ι).step s .consumer = some s') :
    s'.Ready n false ∨ (∃ i, s'.Waiting n false i) ∨
      s'.Alone n ∧ s'.consumer.toDummy < s.consumer.toDummy := by
  obtain ⟨l, hl⟩ := inv_of_mpscQueueIntrusive h.reachable
  have hk := hl.consumer
  have hnull := h.null
  have hd : s.tail ≠ s.dummyPtr := fun e => by simpa using h.dummy.mpr e
  have hcases := (h.toStage.stays hl hnull hs).cases
  -- the only call that can be about to store the link is the one inside `Dequeue`
  have hsingle : l = [s.tail] ∨ ∃ b, s.consumer.enqueuing = .link b s.tail := by
    refine (hl.singleton_or_pending hnull).imp_right ?_
    rintro ⟨k, b, hb⟩
    cases k with
    | none => exact ⟨b, hb⟩
    | some i => exact absurd hb (h.producer i b)
  have hlower : s'.consumer.toDummy < s.consumer.toDummy →
      s'.Ready n false ∨ (∃ i, s'.Waiting n false i) ∨
        s'.Alone n ∧ s'.consumer.toDummy < s.consumer.toDummy :=
    fun hlt => hcases.imp_right (Or.imp_right fun h' => ⟨h', hlt⟩)
  have hstep := consumerStep_cases (show s.consumerStep s.consumer = some s' from hs)
  generalize hc : s.consumer = pc at hk hstep hsingle hlower ⊢
  cases hstep with
  | loadTail => exact hlower (by simp [DequeuePc.toDummy])
  | empty he => exact absurd (hk.symm.trans he) hd
  | loadDummy he => exact absurd (hk.symm.trans he) hd
  | @load t =>
    obtain rfl : t = s.tail := hk
    exact hlower (by simp [hnull, afterLoad, DequeuePc.toDummy])
  | skip => exact absurd hk.1 hd
  | @loadAgain t =>
    obtain ⟨rfl, -⟩ := hk
    exact hlower (by simp [hnull, afterLoad, DequeuePc.toDummy])
  | @storeTail t m =>
    obtain ⟨⟨rfl, -⟩, hm⟩ := hk
    rw [hnull] at hm
    cases hm
  | loadHead => exact hlower (by simp [DequeuePc.toDummy, EnqueuePc.left])
  | @notHead t hne =>
    obtain ⟨rfl, -⟩ := hk
    rcases hsingle with rfl | ⟨b, hb⟩
    · exact absurd (Option.some.inj hl.calls.last) hne
    · cases hb
  | @enqueueDummy t pc q x hq =>
    cases pc with
    | idle => cases hq
    | clear m =>
      obtain ⟨rfl, rfl⟩ := Prod.mk.inj (Option.some.inj hq)
      exact hlower (by simp [afterEnqueue, DequeuePc.toDummy, EnqueuePc.left])
    | exchange m =>
      obtain ⟨rfl, rfl⟩ := Prod.mk.inj (Option.some.inj hq)
      exact hlower (by simp [afterEnqueue, DequeuePc.toDummy, EnqueuePc.left])
    | link m p =>
      have hpending : s.enqueuing none = .link m p := by rw [enqueuing, hc]; rfl
      obtain rfl : s.tail = p := by
        rcases hsingle with rfl | ⟨b, hb⟩
        · have hmem := (mem_of_adjacent (hl.calls.chain.pending none _ m hpending).1).1
          exact (List.mem_singleton.mp hmem).symm
        · exact (EnqueuePc.link.inj hb).2.symm
      obtain ⟨rfl, rfl⟩ := Prod.mk.inj (Option.some.inj hq)
      exact .inl ⟨h.toStage.stays hl hnull hs, m, Function.update_self ..⟩
  | @reload t m hm =>
    obtain ⟨rfl, -⟩ := hk
    rw [hnull] at hm
    cases hm
  | giveUp => exact hlower (by simp [DequeuePc.toDummy])

/-- With the dummy as the consumer's node, the rest of the queue is linked, or a producer is about to
link it. -/
theorem Stage.cases_dummy (h : s.Stage n true) (hlt : n < s.exchanged.length) :
    s.Ready n true ∨ ∃ i, s.Waiting n true i := by
  obtain ⟨l, hl⟩ := inv_of_mpscQueueIntrusive h.reachable
  have hd : s.tail = s.dummyPtr := h.dummy.mp rfl
  cases hn : s.next s.tail with
  | some b => exact .inl ⟨h, b, hn⟩
  | none =>
    rcases hl.singleton_or_pending hn with rfl | ⟨k, b, hb⟩
    · have hfifo := hl.calls.fifo
      rw [hd] at hfifo
      rw [hfifo, ← h.returned] at hlt
      simp at hlt
    · cases k with
      | some i => exact .inr ⟨i, h, b, hb⟩
      | none =>
        -- the consumer enqueues the dummy only behind another node
        have hk := hl.consumer
        cases hc : s.consumer <;> rw [enqueuing, hc] at hb <;> try cases hb
        rw [hc] at hk
        exact absurd (hk.1.1.trans hd) hk.1.2

variable {sched : ℕ → Action ι}

/-- A stage that the producers leave as it is and that the consumer brings closer to its end. -/
theorem leadsTo_consumer {P Q : MPSCQueueIntrusive ι → Prop} (μ : DequeuePc → ℕ)
    (hc : Machine.Fair (· = Action.consumer) sched)
    (hreach : ∀ x, P x → (mpscQueueIntrusive ι).Reachable x)
    (hconsumer : ∀ x x', P x → (mpscQueueIntrusive ι).step x .consumer = some x' →
      Q x' ∨ P x' ∧ μ x'.consumer < μ x.consumer)
    (hproducers : ∀ x a x', P x → a ≠ .consumer → (mpscQueueIntrusive ι).step x a = some x' →
      Q x' ∨ P x' ∧ μ x'.consumer = μ x.consumer) : (mpscQueueIntrusive ι).LeadsTo s sched P Q := by
  refine .of_fair_measure (A := (· = Action.consumer)) (fun x => μ x.consumer)
    (fun t s' ht hs' => ?_) (fun t ha ht => ?_) hc
  · by_cases ha : sched t = .consumer
    · exact (hconsumer _ _ ht (ha ▸ hs')).imp_right fun h => ⟨h.1, h.2.le⟩
    · exact (hproducers _ _ _ ht ha hs').imp_right fun h => ⟨h.1, h.2.le⟩
  · have ha : sched t = .consumer := ha
    obtain ⟨s', hs'⟩ := enabled (hreach _ ht)
    rw [ha]
    exact ⟨s', hs', hconsumer _ _ ht hs'⟩

theorem leadsTo_link {i : ι} (hp : Machine.Fair (· = Action.producer i) sched) :
    (mpscQueueIntrusive ι).LeadsTo s sched (Waiting n d i) (Ready n d) := by
  refine .of_fair (A := (· = Action.producer i)) (fun t s' ht hs' => ?_) (fun t ha ht => ?_) hp
  · by_cases ha : sched t = .producer i
    · obtain ⟨s'', hs'', hready⟩ := ht.link
      rw [ha] at hs'
      exact .inr (Option.some.inj (hs''.symm.trans hs') ▸ hready)
    · exact .inl (ht.step ha hs')
  · have ha : sched t = .producer i := ha
    rw [ha]
    exact ht.link

theorem served (hs : (mpscQueueIntrusive ι).Reachable s)
    (hc : Machine.Fair (· = Action.consumer) sched)
    (hp : ∀ i, Machine.Fair (· = Action.producer i) sched) (n : ℕ) :
    (mpscQueueIntrusive ι).LeadsTo s sched
      (fun x => x.returned.length = n ∧ n < x.exchanged.length) fun x => n < x.returned.length := by
  have hready : (mpscQueueIntrusive ι).LeadsTo s sched (Ready n false)
      fun x => n < x.returned.length :=
    leadsTo_consumer DequeuePc.toReturn hc (fun x h => h.reachable) (fun x x' h => h.returns)
      fun x a x' h ha hs => let h' := h.producers ha hs; .inr ⟨h'.1, congrArg _ h'.2⟩
  have hskip : (mpscQueueIntrusive ι).LeadsTo s sched (Ready n true) (Stage n false) :=
    leadsTo_consumer DequeuePc.toSkip hc (fun x h => h.reachable) (fun x x' h => h.skips)
      fun x a x' h ha hs => let h' := h.producers ha hs; .inr ⟨h'.1, congrArg _ h'.2⟩
  have halone : (mpscQueueIntrusive ι).LeadsTo s sched (Alone n)
      fun x => Ready n false x ∨ ∃ i, Waiting n false i x :=
    leadsTo_consumer DequeuePc.toDummy hc (fun x h => h.reachable)
      (fun x x' h hs => or_assoc.mpr (h.consumer hs))
      fun x a x' h ha hs => or_assoc.mpr (h.producers ha hs)
  have hlinked := hready.or (.of_exists fun i => (leadsTo_link (hp i)).trans hready)
  have hstage : (mpscQueueIntrusive ι).LeadsTo s sched (Stage n false)
      fun x => n < x.returned.length := by
    refine (Machine.LeadsTo.of_imp fun t ht => ?_).trans (hlinked.or (halone.trans hlinked))
    exact or_assoc.mpr ht.cases
  have hdummy := (hskip.or (.of_exists fun i => (leadsTo_link (hp i)).trans hskip)).trans hstage
  refine (Machine.LeadsTo.of_imp fun t ht => ?_).trans (hstage.or hdummy)
  have hr : (mpscQueueIntrusive ι).Reachable ((mpscQueueIntrusive ι).trace s sched t) :=
    Machine.trace_reachable hs t
  by_cases hd : ((mpscQueueIntrusive ι).trace s sched t).tail =
      ((mpscQueueIntrusive ι).trace s sched t).dummyPtr
  · exact .inr (Stage.cases_dummy ⟨hr, ht.1, by simpa using hd⟩ ht.2)
  · exact .inl ⟨hr, ht.1, by simpa using hd⟩

theorem exchanged_prefix {a : Action ι} (hs : s.step a = some s') :
    s.exchanged <+: s'.exchanged := by
  have hcall : ∀ pc q x, s.enqueueStep pc = some (q, x) → s.exchanged <+: q.exchanged := by
    intro pc q x hq
    cases pc with
    | idle => cases hq
    | clear m => obtain ⟨rfl, rfl⟩ := Prod.mk.inj (Option.some.inj hq); exact List.prefix_rfl
    | exchange m =>
      obtain ⟨rfl, rfl⟩ := Prod.mk.inj (Option.some.inj hq)
      rw [setHead_exchanged]
      split_ifs
      · exact List.prefix_rfl
      · exact List.prefix_append _ _
    | link m p => obtain ⟨rfl, rfl⟩ := Prod.mk.inj (Option.some.inj hq); exact List.prefix_rfl
  cases step_cases hs with
  | @producer i q x hq => exact show s.exchanged <+: q.exchanged from hcall _ _ _ hq
  | @enqueueDummy t pc q x hc hq => exact show s.exchanged <+: q.exchanged from hcall _ _ _ hq
  | _ => exact List.prefix_rfl

end MPSCQueueIntrusive

/-- **Delivery.** The consumer and every producer get their turns again and again. Then whatever
node has been exchanged as the `k`th is returned as the `k`th in the end, the dummy not counted. -/
theorem intrusive_delivers (ι : Type v) [DecidableEq ι] (s : MPSCQueueIntrusive ι)
    (sched : ℕ → Intrusive.Action ι) (hs : (mpscQueueIntrusive ι).init s)
    (hc : Machine.Fair (· = Intrusive.Action.consumer) sched)
    (hp : ∀ i, Machine.Fair (· = Intrusive.Action.producer i) sched) :
    ∀ t k n : ℕ, ((mpscQueueIntrusive ι).trace s sched t).exchanged[k]? = some n →
      ∃ t' ≥ t, ((mpscQueueIntrusive ι).trace s sched t').returned[k]? = some n := by
  intro t k n hk
  have hreach : (mpscQueueIntrusive ι).Reachable s := .init hs
  refine Machine.delivers (fun t => ?_) (fun t t' h => ?_)
    (MPSCQueueIntrusive.served hreach hc hp) hk
  · obtain ⟨l, hl⟩ := inv_of_mpscQueueIntrusive (Machine.trace_reachable hreach t)
    rw [hl.calls.fifo]
    exact List.prefix_append _ _
  · exact Machine.trace_relation
      (R := fun x y : MPSCQueueIntrusive ι => x.exchanged <+: y.exchanged)
      (fun _ => List.prefix_rfl) (fun _ _ _ => List.IsPrefix.trans)
      (fun t s' hs' => MPSCQueueIntrusive.exchanged_prefix hs') h

/-- The only node comes out by way of the dummy. -/
theorem intrusive_delivers_one :
    ∃ t, ((mpscQueueIntrusive Unit).trace (.initial Unit 0 fun _ => none)
      (fun t => if t = 0 then .enqueue () 5 else if t % 2 = 1 then .producer () else .consumer)
        t).returned[0]? = some 5 := by
  obtain ⟨t, -, ht⟩ := intrusive_delivers Unit (.initial Unit 0 fun _ => none)
    (fun t => if t = 0 then .enqueue () 5 else if t % 2 = 1 then .producer () else .consumer)
    ⟨0, _, rfl⟩ (fun t => ⟨2 * t + 2, by omega, by simp⟩)
    (fun _ => fun t => ⟨2 * t + 1, by omega, by simp⟩) 4 0 5 rfl
  exact ⟨t, ht⟩

end SelfStudy.Threading
