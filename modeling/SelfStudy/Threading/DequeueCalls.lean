import SelfStudy.Lib.Consumer
import SelfStudy.Threading.IntrusiveFifo
import SelfStudy.Threading.NonIntrusiveFifo

/-!
# When `Dequeue` gives nothing

The elements in a queue are those that have been exchanged on `_head` and not been returned. Where a
call of `Dequeue` finds a null link, the chain ends or some call of `Enqueue` has exchanged and not
linked. The intrusive queue loads `_head` after the link, and the link may be there by then; but then
some `Enqueue` has stored it in the meantime, and before that it stood between its exchange and its
store.
-/

namespace SelfStudy.Threading

open Lib

universe u v

/-! ## The non-intrusive queue -/

namespace NonIntrusive

/-- The steps of `Dequeue` that are left at most. -/
def ConsumerPc.left {β : Type u} : ConsumerPc β → ℕ
  | .idle => 0
  | .delete _ _ => 1
  | .storeTail _ _ => 2
  | .loadNext _ => 3

end NonIntrusive

namespace MPSCQueueNonIntrusive

open NonIntrusive

variable {ι : Type v} {β : Type u} {s t : MPSCQueueNonIntrusive ι β}

/-- The payloads in the queue. -/
def held (s : MPSCQueueNonIntrusive ι β) : List β :=
  (s.exchanged.map Prod.snd).drop s.returned.length

/-- Some `Enqueue` has exchanged `_head` and not stored its link yet. -/
def InFlight (s : MPSCQueueNonIntrusive ι β) : Prop := ∃ i n p, s.producer i = .link n p

/-- The queue with its consumer. -/
def dequeuing (ι : Type v) (β : Type u) :
    Consumer (MPSCQueueNonIntrusive ι β) (Action ι β) β where
  act := .consumer
  idle s := s.consumer = .idle
  held := held
  returned := returned
  inFlight := InFlight
  quiet s := ∀ i, s.producer i = .idle
  knows _ := True
  rank s := s.consumer.left

theorem Inv.held_eq {l : List ℕ} (h : s.Inv l) : s.held = s.consumer.inHand ++ l.map s.data := by
  unfold held
  rw [h.fifo, List.append_assoc, List.drop_left]

/-- The step in which `Dequeue` gives nothing. -/
theorem Inv.excused {l : List ℕ} (h : s.Inv l) {a : ℕ} (hc : s.consumer = .loadNext a)
    (hn : s.next a = none) : s.held = [] ∨ s.InFlight := by
  have hk := h.consumer
  rw [hc] at hk
  obtain rfl := hk
  rcases h.chain.eq_nil_or_pending hn with rfl | ⟨i, b, hi⟩
  · left
    rw [h.held_eq, hc]
    rfl
  · exact .inr ⟨i, b, _, hi⟩

/-- The step in which `Dequeue` gives a payload. -/
theorem Inv.held_delete {l : List ℕ} (h : s.Inv l) {a : ℕ} {r : β}
    (hc : s.consumer = .delete a r) :
    s.held = r :: ((((s.touch a).deallocate a).logReturn r).setConsumer .idle).held := by
  rw [h.held_eq, (h.delete hc).held_eq, hc]
  rfl

theorem consumerStep_grows (pc : ConsumerPc β) :
    (s.consumerStep pc).producer = s.producer ∧ (s.consumerStep pc).exchanged = s.exchanged ∧
      s.returned <+: (s.consumerStep pc).returned := by
  cases pc with
  | idle => exact ⟨rfl, rfl, List.prefix_rfl⟩
  | loadNext a =>
    simp only [consumerStep]
    cases s.next a <;> exact ⟨rfl, rfl, List.prefix_rfl⟩
  | storeTail a n => exact ⟨rfl, rfl, List.prefix_rfl⟩
  | delete a r => exact ⟨rfl, rfl, List.prefix_append _ _⟩

variable [DecidableEq ι]

theorem returned_append_held (hs : (mpscQueueNonIntrusive ι β).Reachable s) :
    s.returned ++ s.held = s.exchanged.map Prod.snd := by
  obtain ⟨⟨l, hl⟩, -⟩ := inv_of_mpscQueueNonIntrusive hs
  rw [hl.held_eq, hl.fifo, List.append_assoc]

theorem dequeuing_sound : (dequeuing ι β).Sound (mpscQueueNonIntrusive ι β) where
  enabled s _ := ⟨_, rfl⟩
  leaves s t hi hs := by
    obtain rfl := Option.some.inj hs
    have hi : s.consumer = .idle := hi
    rw [hi]
    simp [dequeuing, consumerStep]
  grows s t hs := by
    obtain rfl := Option.some.inj hs
    exact (consumerStep_grows _).2.2
  keeps s a t hs hni := by
    cases step_cases hs with
    | delete => exact absurd rfl hni
    | _ => rfl
  first _ _ _ _ _ _ _ := trivial
  next _ _ _ _ _ _ _ _ _ _ := trivial
  last s a t hr hni _ hs ht := by
    obtain ⟨⟨l, hl⟩, -⟩ := inv_of_mpscQueueNonIntrusive hr
    cases step_cases hs with
    | enqueue => exact absurd ht hni
    | exchange => exact absurd ht hni
    | link => exact absurd ht hni
    | loadTail hc => exact absurd hc hni
    | empty hc hn => exact .inl ⟨hl.excused hc hn, rfl⟩
    | loadNext => cases ht
    | storeTail => cases ht
    | delete hc => exact .inr ⟨_, hl.held_delete hc, rfl⟩
  quiet_step s t hr hq hs := by
    have hrt := hr.step trivial hs
    obtain rfl := Option.some.inj hs
    obtain ⟨hp, he, -⟩ := consumerStep_grows (s := s) s.consumer
    have htotal := (returned_append_held hrt).trans (congrArg (List.map Prod.snd) he)
    exact ⟨fun i => (congrFun hp i).trans (hq i), htotal.trans (returned_append_held hr).symm⟩
  quiet_not s hq := by
    rintro ⟨i, n, p, hi⟩
    rw [hq i] at hi
    cases hi
  rank s t _ hni hs := by
    obtain rfl := Option.some.inj hs
    show (s.consumerStep s.consumer).consumer = .idle ∨
      (s.consumerStep s.consumer).consumer.left < s.consumer.left
    cases hc : s.consumer with
    | idle => exact absurd hc hni
    | loadNext a =>
      simp only [consumerStep]
      cases s.next a <;> simp [ConsumerPc.left]
    | storeTail a n => simp [consumerStep, ConsumerPc.left]
    | delete a r => exact .inl rfl

end MPSCQueueNonIntrusive

/-! ## The intrusive queue -/

namespace Intrusive

/-- The steps of the `Enqueue` in `Dequeue` that are left at most. -/
def EnqueuePc.left : EnqueuePc → ℕ
  | .idle => 0
  | .link _ _ => 1
  | .exchange _ => 2
  | .clear _ => 3

/-- The steps of `Dequeue` that are left at most. -/
def DequeuePc.left : DequeuePc → ℕ
  | .idle => 0
  | .storeTail _ _ => 1
  | .reload _ => 2
  | .enqueueDummy _ pc => 2 + pc.left
  | .loadHead _ => 6
  | .loadAgain _ => 7
  | .skip _ => 8
  | .loadNext _ => 9

end Intrusive

namespace MPSCQueueIntrusive

open Intrusive

variable {ι : Type v} {s t : MPSCQueueIntrusive ι} {l : List ℕ}

/-- The nodes in the queue. -/
def held (s : MPSCQueueIntrusive ι) : List ℕ := s.exchanged.drop s.returned.length

/-- Some `Enqueue` has exchanged `_head` and not stored its link yet. -/
def InFlight (s : MPSCQueueIntrusive ι) : Prop := ∃ i n p, s.producer i = .link n p

/-- What holds inside a call as long as the queue is not empty and no `Enqueue` is in flight: the link
that was null is still null, and nobody has exchanged `_head` after the dummy. -/
def Undisturbed (s : MPSCQueueIntrusive ι) : DequeuePc → Prop
  | .loadHead a => s.next a = none
  | .enqueueDummy _ (.link _ _) | .reload _ => s.head = s.dummyPtr
  | _ => True

/-- The queue with its consumer. -/
def dequeuing (ι : Type v) : Consumer (MPSCQueueIntrusive ι) (Action ι) ℕ where
  act := .consumer
  idle s := s.consumer = .idle
  held := held
  returned := returned
  inFlight := InFlight
  quiet s := ∀ i, s.producer i = .idle
  knows s := s.Undisturbed s.consumer
  rank s := s.consumer.left

theorem Inv.held_eq (h : s.Inv l) : s.held = l.filter (· ≠ s.dummyPtr) := by
  unfold held
  rw [h.calls.fifo, List.drop_left]

/-- Behind a null link of the first node there is nothing, or an `Enqueue` in flight. -/
theorem Inv.broken (h : s.Inv l) (hc : s.consumer.enqueuing = .idle) (hn : s.next s.tail = none) :
    l = [s.tail] ∨ s.InFlight := by
  have hfirst := h.calls.first
  have hchain := h.calls.chain
  cases l with
  | nil => cases hfirst
  | cons a l =>
    obtain rfl : a = s.tail := by simpa using hfirst
    rcases hchain.eq_nil_or_pending hn with rfl | ⟨k, b, hk⟩
    · exact .inl rfl
    · cases k with
      | some i => exact .inr ⟨i, b, _, hk⟩
      | none =>
        rw [Pending, enqueuing, hc] at hk
        cases hk

/-- The first exit that gives nothing: the dummy is first and its link is null. -/
theorem Inv.excused_empty (h : s.Inv l) {a : ℕ} (hc : s.consumer = .loadNext a)
    (hd : a = s.dummyPtr) (hn : s.next a = none) : s.held = [] ∨ s.InFlight := by
  have hk := h.consumer
  rw [hc] at hk
  obtain rfl : a = s.tail := hk
  refine (h.broken (by rw [hc]; rfl) hn).imp_left ?_
  rintro rfl
  rw [h.held_eq]
  simp [hd]

/-- The other two: `_head` is another node, and the link of the first is null. -/
theorem Inv.excused_other (h : s.Inv l) (hc : s.consumer.enqueuing = .idle)
    (hn : s.next s.tail = none) (hne : s.tail ≠ s.head) : s.InFlight := by
  refine (h.broken hc hn).resolve_left ?_
  rintro rfl
  exact hne (Option.some.inj h.calls.last)

/-- The step in which `Dequeue` gives a node. -/
theorem Inv.held_storeTail (h : s.Inv l) {a n : ℕ} (hc : s.consumer = .storeTail a n) :
    s.held = a :: (((s.setTail n).release a).setConsumer .idle).held := by
  have hk := h.consumer
  rw [hc] at hk
  obtain ⟨⟨rfl, hd⟩, hn⟩ := hk
  obtain ⟨l', rfl⟩ := h.exists_cons hn
  have hfifo := h.calls.fifo
  have hheld := h.held_eq
  rw [List.filter_cons_of_pos (by simpa using hd)] at hfifo hheld
  rw [List.append_cons] at hfifo
  rw [hheld]
  refine congrArg _ ?_
  show _ = s.exchanged.drop (s.returned ++ [s.tail]).length
  rw [hfifo, List.drop_left]

/-! ### Steps -/

/-- The step that ends a call of `Dequeue`. -/
theorem consumerStep_returns {pc : DequeuePc} (h : s.consumerStep pc = some t)
    (ht : t.consumer = .idle) :
    (∃ a n, pc = .storeTail a n ∧ t = ((s.setTail n).release a).setConsumer .idle) ∨
      t = s.setConsumer .idle ∧ ((∃ a, pc = .loadNext a ∧ a = s.dummyPtr ∧ s.next a = none) ∨
        (∃ a, pc = .loadHead a ∧ a ≠ s.head) ∨ ∃ a, pc = .reload a ∧ s.next a = none) := by
  cases consumerStep_cases h with
  | storeTail => exact .inl ⟨_, _, rfl, rfl⟩
  | empty hd hn => exact .inr ⟨rfl, .inl ⟨_, rfl, hd, hn⟩⟩
  | notHead hh => exact .inr ⟨rfl, .inr (.inl ⟨_, rfl, hh⟩)⟩
  | giveUp hn => exact .inr ⟨rfl, .inr (.inr ⟨_, rfl, hn⟩)⟩
  | @load a hd => cases hn : s.next a <;> simp [afterLoad, hn] at ht
  | @loadAgain a => cases hn : s.next a <;> simp [afterLoad, hn] at ht
  | @enqueueDummy a pc q pc' hq => cases pc' <;> cases ht
  | loadTail | loadDummy | skip | loadHead | reload => cases ht

/-- `Dequeue` exchanges nothing but the dummy. -/
theorem Inv.consumer_exchanged (h : s.Inv l) (hs : s.consumerStep s.consumer = some t) :
    t.producer = s.producer ∧ t.exchanged = s.exchanged := by
  have hk := h.consumer
  have hstep := consumerStep_cases hs
  generalize s.consumer = pc at hk hstep
  cases hstep with
  | @enqueueDummy a pc q pc' hq =>
    cases pc with
    | idle => cases hq
    | exchange n =>
      obtain ⟨rfl, rfl⟩ := Prod.mk.inj (Option.some.inj hq)
      have hn : n = s.dummyPtr := hk.2 n rfl
      refine ⟨rfl, ?_⟩
      show (s.setHead n).exchanged = s.exchanged
      rw [setHead_exchanged, if_pos hn]
    | clear n => obtain ⟨rfl, rfl⟩ := Prod.mk.inj (Option.some.inj hq); exact ⟨rfl, rfl⟩
    | link n p => obtain ⟨rfl, rfl⟩ := Prod.mk.inj (Option.some.inj hq); exact ⟨rfl, rfl⟩
  | _ => exact ⟨rfl, rfl⟩

theorem enqueueStep_left {pc pc' : EnqueuePc} (h : s.enqueueStep pc = some (t, pc')) :
    pc'.left + 1 = pc.left := by
  cases pc <;> cases h <;> rfl

theorem left_afterLoad (a : ℕ) (n : Option ℕ) : (afterLoad a n).left ≤ 6 := by
  cases n <;> simp [afterLoad, DequeuePc.left]

theorem left_afterEnqueue (a : ℕ) (pc : EnqueuePc) : (afterEnqueue a pc).left = 2 + pc.left := by
  cases pc <;> rfl

/-- A step of `Dequeue` ends the call or brings it closer to the end. -/
theorem consumerStep_left {pc : DequeuePc} (h : s.consumerStep pc = some t) (hpc : pc ≠ .idle) :
    t.consumer.left < pc.left := by
  cases consumerStep_cases h with
  | loadTail => exact absurd rfl hpc
  | @load a hd => exact Nat.lt_of_le_of_lt (left_afterLoad a (s.next a)) (by simp [DequeuePc.left])
  | @loadAgain a => exact Nat.lt_succ_of_le (left_afterLoad a (s.next a))
  | @enqueueDummy a pc q pc' hq =>
    have hlt := enqueueStep_left hq
    show (afterEnqueue a pc').left < 2 + pc.left
    rw [left_afterEnqueue]
    omega
  | empty | loadDummy | skip | storeTail | loadHead | notHead | reload | giveUp =>
    simp [DequeuePc.left, EnqueuePc.left]

theorem afterEnqueue_ne (a b : ℕ) (pc : EnqueuePc) : afterEnqueue a pc ≠ .enqueueDummy b .idle := by
  cases pc <;> simp [afterEnqueue]

theorem afterLoad_ne (a b : ℕ) (n : Option ℕ) (pc : EnqueuePc) :
    afterLoad a n ≠ .enqueueDummy b pc := by
  cases n <;> simp [afterLoad]

/-- A step of the `Enqueue` in `Dequeue`. -/
theorem Undisturbed.enqueueDummy {a : ℕ} {pc x : EnqueuePc} (h : s.Undisturbed (.enqueueDummy a pc))
    (hs : s.enqueueStep pc = some (t, x)) (hd : ∀ n, pc.hand = some n → n = s.dummyPtr) :
    (t.setConsumer (afterEnqueue a x)).Undisturbed (afterEnqueue a x) := by
  cases pc with
  | idle => cases hs
  | clear n =>
    obtain ⟨rfl, rfl⟩ := Prod.mk.inj (Option.some.inj hs)
    trivial
  | exchange n =>
    obtain ⟨rfl, rfl⟩ := Prod.mk.inj (Option.some.inj hs)
    exact hd n rfl
  | link n p =>
    obtain ⟨rfl, rfl⟩ := Prod.mk.inj (Option.some.inj hs)
    exact h

/-- An exit that gives nothing. -/
theorem Undisturbed.excused {pc : DequeuePc} (h : s.Undisturbed pc) (hl : s.Inv l)
    (hc : s.consumer = pc)
    (hs : (∃ a, pc = .loadNext a ∧ a = s.dummyPtr ∧ s.next a = none) ∨
      (∃ a, pc = .loadHead a ∧ a ≠ s.head) ∨ ∃ a, pc = .reload a ∧ s.next a = none) :
    s.held = [] ∨ s.InFlight := by
  have hk := hl.consumer
  rcases hs with ⟨a, rfl, hd, hn⟩ | ⟨a, rfl, hne⟩ | ⟨a, rfl, hn⟩
  · exact hl.excused_empty hc hd hn
  · rw [hc] at hk
    obtain ⟨rfl, -⟩ := hk
    exact .inr (hl.excused_other (by rw [hc]; rfl) h hne)
  · rw [hc] at hk
    obtain ⟨rfl, hd⟩ := hk
    have hne : s.tail ≠ s.head := fun e => hd (e.trans h)
    exact .inr (hl.excused_other (by rw [hc]; rfl) hn hne)

variable [DecidableEq ι]

theorem enqueueDummy_ne_idle (hs : (mpscQueueIntrusive ι).Reachable s) :
    ∀ a, s.consumer ≠ .enqueueDummy a .idle := by
  refine hs.invariant (P := fun s => ∀ a, s.consumer ≠ .enqueueDummy a .idle) ?_ ?_
  · rintro _ ⟨d, next, rfl⟩ a h
    cases h
  · intro s a s' _ h _ hs b
    cases step_cases hs with
    | enqueue => exact h b
    | producer hq => exact (enqueueStep_keeps hq).2 ▸ h b
    | load => exact afterLoad_ne _ b _ _
    | enqueueDummy => exact afterEnqueue_ne _ b _
    | _ => simp

theorem returned_append_held (hs : (mpscQueueIntrusive ι).Reachable s) :
    s.returned ++ s.held = s.exchanged := by
  obtain ⟨l, hl⟩ := inv_of_mpscQueueIntrusive hs
  rw [hl.held_eq, hl.calls.fifo]

/-- A step of a producer, with nothing in flight before it and after it. -/
theorem Undisturbed.producer {i : ι} {x : EnqueuePc} (h : s.Undisturbed s.consumer)
    (hs : s.enqueueStep (s.producer i) = some (t, x)) (hnot : ¬ s.InFlight)
    (hnot' : ¬ (t.setProducer i x).InFlight) : (t.setProducer i x).Undisturbed t.consumer := by
  cases hi : s.producer i with
  | idle => rw [hi] at hs; cases hs
  | link n p => exact absurd ⟨i, n, p, hi⟩ hnot
  | exchange n =>
    rw [hi] at hs
    obtain ⟨rfl, rfl⟩ := Prod.mk.inj (Option.some.inj hs)
    exact absurd ⟨i, n, s.head, Function.update_self ..⟩ hnot'
  | clear n =>
    rw [hi] at hs
    obtain ⟨rfl, rfl⟩ := Prod.mk.inj (Option.some.inj hs)
    show Undisturbed _ s.consumer
    cases hc : s.consumer with
    | loadHead a =>
      rw [hc] at h
      show Function.update s.next n none a = none
      by_cases e : a = n
      · rw [e, Function.update_self]
      · rw [Function.update_of_ne e]
        exact h
    | reload a => rw [hc] at h; exact h
    | enqueueDummy a pc =>
      rw [hc] at h
      cases pc with
      | link m p => exact h
      | _ => trivial
    | _ => trivial

theorem Undisturbed.step (h : s.Undisturbed s.consumer) (hl : s.Inv l) (hs : Step s t)
    (hidle : s.consumer ≠ .idle) (hnot : ¬ s.InFlight) (hnot' : ¬ t.InFlight) :
    t.Undisturbed t.consumer := by
  have hk := hl.consumer
  cases hs with
  | enqueue =>
    show Undisturbed _ s.consumer
    cases hc : s.consumer <;> rw [hc] at h <;> exact h
  | producer hs => exact h.producer hs hnot hnot'
  | loadTail hc => exact absurd hc hidle
  | @load a hc =>
    show Undisturbed _ (afterLoad a (s.next a))
    cases hn : s.next a with
    | none => exact hn
    | some n => trivial
  | enqueueDummy hc hs =>
    rw [hc] at h hk
    exact h.enqueueDummy hs hk.2
  | _ => trivial

theorem enabled (hs : (mpscQueueIntrusive ι).Reachable s) : ∃ t, s.consumerStep s.consumer = some t := by
  cases hc : s.consumer with
  | loadNext a =>
    simp only [consumerStep]
    split_ifs
    · cases s.next a <;> exact ⟨_, rfl⟩
    · exact ⟨_, rfl⟩
  | loadHead a =>
    simp only [consumerStep]
    split_ifs <;> exact ⟨_, rfl⟩
  | reload a =>
    simp only [consumerStep]
    cases s.next a <;> exact ⟨_, rfl⟩
  | enqueueDummy a pc =>
    cases pc with
    | idle => exact absurd hc (enqueueDummy_ne_idle hs a)
    | _ => exact ⟨_, rfl⟩
  | _ => exact ⟨_, rfl⟩

/-- The producers leave `Dequeue` alone. -/
theorem step_producers {a : Action ι} (hs : s.step a = some t) (ha : a ≠ .consumer) :
    t.consumer = s.consumer ∧ t.returned = s.returned := by
  cases a with
  | consumer => exact absurd rfl ha
  | producer i =>
    obtain ⟨⟨q, pc⟩, hq, rfl⟩ := Option.map_eq_some_iff.mp hs
    exact ⟨(enqueueStep_keeps hq).2, (enqueueStep_keeps hq).1.returned⟩
  | enqueue i n =>
    obtain ⟨-, hs⟩ := Option.ite_none_right_eq_some.mp hs
    exact Option.some.inj hs ▸ ⟨rfl, rfl⟩

theorem dequeuing_sound : (dequeuing ι).Sound (mpscQueueIntrusive ι) where
  enabled s hs := enabled hs
  leaves s t hi hs := by
    have hs : s.consumerStep s.consumer = some t := hs
    rw [show s.consumer = .idle from hi] at hs
    obtain rfl := Option.some.inj hs
    simp [dequeuing]
  grows s t hs := by
    rcases consumerStep_keeps hs with ⟨a, n, -, rfl⟩ | hk
    · exact List.prefix_append _ _
    · show s.returned <+: t.returned
      rw [hk.returned]
  keeps s a t hs hni := by
    by_cases ha : a = .consumer
    · obtain rfl := ha
      rcases consumerStep_keeps hs with ⟨b, n, -, rfl⟩ | hk
      · exact absurd rfl hni
      · exact hk.returned
    · exact (step_producers hs ha).2
  first s a t hr hi hs hni := by
    have hi : s.consumer = .idle := hi
    by_cases ha : a = .consumer
    · obtain rfl := ha
      have hs : s.consumerStep s.consumer = some t := hs
      rw [hi] at hs
      obtain rfl := Option.some.inj hs
      trivial
    · exact absurd ((step_producers hs ha).1.trans hi) hni
  next s a t hr hidle hk hnot hs hni hnot' := by
    obtain ⟨l, hl⟩ := inv_of_mpscQueueIntrusive hr
    exact hk.step hl (step_cases hs) hidle (fun h => hnot (.inr h)) fun h => hnot' (.inr h)
  last s a t hr hni hk hs ht := by
    obtain ⟨l, hl⟩ := inv_of_mpscQueueIntrusive hr
    by_cases ha : a = .consumer
    · obtain rfl := ha
      rcases consumerStep_returns hs ht with ⟨b, n, hc, rfl⟩ | ⟨rfl, hexit⟩
      · exact .inr ⟨b, hl.held_storeTail hc, rfl⟩
      · exact .inl ⟨hk.excused hl rfl hexit, rfl⟩
    · exact absurd ((step_producers hs ha).1.symm.trans ht) hni
  quiet_step s t hr hq hs := by
    have hrt := hr.step trivial hs
    obtain ⟨l, hl⟩ := inv_of_mpscQueueIntrusive hr
    obtain ⟨hp, he⟩ := hl.consumer_exchanged hs
    have htotal := (returned_append_held hrt).trans he
    exact ⟨fun i => (congrFun hp i).trans (hq i), htotal.trans (returned_append_held hr).symm⟩
  quiet_not s hq := by
    rintro ⟨i, n, p, hi⟩
    rw [hq i] at hi
    cases hi
  rank s t _ hni hs := .inr (consumerStep_left hs hni)

end MPSCQueueIntrusive

/-- **When `Dequeue` gives nothing.** In both queues a call of `Dequeue` that returns false goes through
a state in which the queue is empty or some `Enqueue` has exchanged `_head` and not stored its link. A
call that no `Enqueue` overlaps returns the oldest element if there is one, and so the calls of a
destructor return all of them. -/
theorem dequeue_justified (ι : Type v) (β : Type u) [DecidableEq ι] :
    (MPSCQueueNonIntrusive.dequeuing ι β).Justified (mpscQueueNonIntrusive ι β) ∧
      (MPSCQueueIntrusive.dequeuing ι).Justified (mpscQueueIntrusive ι) :=
  ⟨MPSCQueueNonIntrusive.dequeuing_sound.justified, MPSCQueueIntrusive.dequeuing_sound.justified⟩

/-- A call may give nothing although the `Enqueue` of node 2 has returned: that of node 1, which is
before it, is in flight. -/
example : ∃ s t : MPSCQueueIntrusive ℕ, (mpscQueueIntrusive ℕ).run (.initial ℕ 0 fun _ => none)
      [.enqueue 0 1, .producer 0, .producer 0, .enqueue 1 2, .producer 1, .producer 1, .producer 1] =
        some s ∧ s.producer 1 = .idle ∧ s.held = [1, 2] ∧
      (mpscQueueIntrusive ℕ).Call (MPSCQueueIntrusive.dequeuing ℕ).idle s [.consumer, .consumer] t ∧
      t.returned = [] :=
  ⟨_, _, rfl, rfl, rfl, .mk rfl rfl (.last (by simp [MPSCQueueIntrusive.dequeuing]) rfl rfl), rfl⟩

end SelfStudy.Threading
