import SelfStudy.Threading.NonIntrusive

/-!
# The non-intrusive queue is a queue

The invariant names the nodes `l` behind `_tail`. A node that a producer has not exchanged yet is
private to it, and the node that the consumer has left is out of the chain before it is deleted.
-/

namespace SelfStudy.Threading

open Lib NonIntrusive

universe u v

namespace MPSCQueueNonIntrusive

variable {ι : Type v} {β : Type u} {s s' : MPSCQueueNonIntrusive ι β} {l : List ℕ}

/-! ## The invariant -/

/-- Producer `i` is about to store the link from `a` to `b`. -/
def Pending (s : MPSCQueueNonIntrusive ι β) (i : ι) (a b : ℕ) : Prop := s.producer i = .link b a

/-- What the consumer knows; `l` are the nodes behind `_tail`. -/
def ConsumerKnows (s : MPSCQueueNonIntrusive ι β) (l : List ℕ) : ConsumerPc β → Prop
  | .idle => True
  | .loadNext t => t = s.tail
  | .storeTail t n => t = s.tail ∧ s.next t = some n
  | .delete t _ => t ∈ s.live ∧ t ∉ s.tail :: l ∧ ∀ i, s.producer i ≠ .exchange t

/-- The nodes `l` behind `_tail` are those whose payloads are in the queue. -/
structure Inv (s : MPSCQueueNonIntrusive ι β) (l : List ℕ) : Prop where
  chain : Chain s.next s.Pending (s.tail :: l)
  head : (s.tail :: l).getLast? = some s.head
  fifo : s.exchanged.map Prod.snd = s.returned ++ s.consumer.inHand ++ l.map s.data
  live : ∀ a ∈ s.tail :: l, a ∈ s.live
  nodup : s.live.Nodup
  fresh : ∀ i n, s.producer i = .exchange n →
    n ∈ s.live ∧ n ∉ s.tail :: l ∧ s.next n = none
  distinct : ∀ i j n, s.producer i = .exchange n → s.producer j = .exchange n → i = j
  consumer : s.ConsumerKnows l s.consumer
  fault : s.fault = false

/-- A node in the chain stays out of the producers' hands. -/
theorem Inv.ne_exchange (h : s.Inv l) {b : ℕ} (hb : b ∈ s.tail :: l) (j : ι) :
    s.producer j ≠ .exchange b :=
  fun hj => (h.fresh j b hj).2.1 hb

theorem inv_initial (a : ℕ) (d : β) : (initial ι a d).Inv [] where
  chain := .singleton rfl fun i x y h => by cases h
  head := rfl
  fifo := rfl
  live b hb := hb
  nodup := List.nodup_singleton a
  fresh i n h := by cases h
  distinct i j n h := by cases h
  consumer := trivial
  fault := rfl

/-! ## The steps of the consumer -/

/-- A step of the consumer that leaves the queue as it is. -/
theorem Inv.setConsumer (h : s.Inv l) {pc : ConsumerPc β} (hk : s.ConsumerKnows l pc)
    (hh : pc.inHand = s.consumer.inHand) : (s.setConsumer pc).Inv l where
  chain := h.chain
  head := h.head
  fifo := by
    show _ = s.returned ++ pc.inHand ++ l.map s.data
    rw [hh]
    exact h.fifo
  live := h.live
  nodup := h.nodup
  fresh := h.fresh
  distinct := h.distinct
  consumer := hk
  fault := h.fault

theorem Inv.touch (h : s.Inv l) {t : ℕ} (ht : t ∈ s.live) : (s.touch t).Inv l where
  chain := h.chain
  head := h.head
  fifo := h.fifo
  live := h.live
  nodup := h.nodup
  fresh := h.fresh
  distinct := h.distinct
  consumer := h.consumer
  fault := (touch_fault_of_mem ht).trans h.fault

theorem Inv.storeTail (h : s.Inv l) {t n : ℕ} (hc : s.consumer = .storeTail t n) :
    ∃ l', l = n :: l' ∧
      (((s.touch n).setTail n).setConsumer (.delete t (s.data n))).Inv l' := by
  have hk := h.consumer
  rw [hc] at hk
  obtain ⟨rfl, hn⟩ := hk
  obtain ⟨l', rfl⟩ : ∃ l', l = n :: l' := List.head?_eq_some_iff.mp (h.chain.head_of_next hn)
  have hlive : n ∈ s.live := h.live n (by simp)
  refine ⟨l', rfl, ?_⟩
  exact
    { chain := h.chain.advance hn
      head := by
        have := h.head
        rw [List.getLast?_cons_cons] at this
        exact this
      fifo := by
        have := h.fifo
        rw [hc] at this
        show s.exchanged.map Prod.snd = s.returned ++ [s.data n] ++ l'.map s.data
        rw [this]
        simp [ConsumerPc.inHand]
      live := fun b hb => h.live b (List.mem_cons_of_mem _ hb)
      nodup := h.nodup
      fresh := fun j m hj =>
        let ⟨hm, hl, hnext⟩ := h.fresh j m hj
        ⟨hm, fun hm' => hl (List.mem_cons_of_mem _ hm'), hnext⟩
      distinct := h.distinct
      consumer := ⟨h.live _ List.mem_cons_self, (List.nodup_cons.mp h.chain.nodup).1,
        h.ne_exchange List.mem_cons_self⟩
      fault := (touch_fault_of_mem hlive).trans h.fault }

theorem Inv.delete (h : s.Inv l) {t : ℕ} {r : β} (hc : s.consumer = .delete t r) :
    ((((s.touch t).deallocate t).logReturn r).setConsumer .idle).Inv l := by
  have hk := h.consumer
  rw [hc] at hk
  obtain ⟨ht, hl, hne⟩ := hk
  have hmem : ∀ {b}, b ≠ t → b ∈ s.live → b ∈ s.live.erase t := fun hb hm =>
    (List.mem_erase_of_ne hb).mpr hm
  exact
    { chain := h.chain
      head := h.head
      fifo := by
        have := h.fifo
        rw [hc] at this
        show s.exchanged.map Prod.snd = s.returned ++ [r] ++ [] ++ l.map s.data
        rw [this, List.append_nil]
        rfl
      live := fun b hb => hmem (fun e => hl (e ▸ hb)) (h.live b hb)
      nodup := h.nodup.erase t
      fresh := fun j m hj =>
        let ⟨hm, hl, hnext⟩ := h.fresh j m hj
        ⟨hmem (fun e => hne j (e ▸ hj)) hm, hl, hnext⟩
      distinct := h.distinct
      consumer := trivial
      fault := (touch_fault_of_mem ht).trans h.fault }

/-! ## The steps of a producer -/

variable [DecidableEq ι]

theorem producer_setProducer {i j : ι} {pc pc' : ProducerPc}
    (h : (s.setProducer i pc).producer j = pc') : j = i ∧ pc = pc' ∨ j ≠ i ∧ s.producer j = pc' := by
  by_cases e : j = i
  · subst e
    rw [setProducer_producer, Function.update_self] at h
    exact .inl ⟨rfl, h⟩
  · rw [setProducer_producer, Function.update_of_ne e] at h
    exact .inr ⟨e, h⟩

theorem pending_setProducer {i j : ι} {pc : ProducerPc} {x y : ℕ} :
    (s.setProducer i pc).Pending j x y ↔ if j = i then pc = .link y x else s.Pending j x y := by
  unfold Pending
  rw [setProducer_producer]
  split_ifs with e
  · rw [e, Function.update_self]
  · rw [Function.update_of_ne e]

theorem Inv.enqueue (h : s.Inv l) {i : ι} {x : β} {a : ℕ} (hi : s.producer i = .idle)
    (ha : a ∉ s.live) :
    (((s.allocate a x).logEnqueue i x).setProducer i (.exchange a)).Inv l where
  chain := by
    have hpend : ∀ j y z, (((s.allocate a x).logEnqueue i x).setProducer i (.exchange a)).Pending
        j y z ↔ s.Pending j y z := by
      intro j y z
      rw [pending_setProducer]
      split_ifs with e
      · subst e
        simp [Pending, hi]
      · rfl
    refine Chain.congr_pending ?_ hpend
    show Chain (s.allocate a x).next s.Pending (s.tail :: l)
    rw [next_allocate]
    refine h.chain.frame fun b hb => Function.update_of_ne ?_ _ _
    rintro rfl
    exact ha (h.live b hb)
  head := h.head
  fifo := by
    have hmap : l.map (s.allocate a x).data = l.map s.data :=
      List.map_congr_left fun b hb => data_allocate_of_ne (by
        rintro rfl
        exact ha (h.live b (List.mem_cons_of_mem _ hb))) x
    show _ = s.returned ++ s.consumer.inHand ++ l.map (s.allocate a x).data
    rw [hmap]
    exact h.fifo
  live b hb := List.mem_cons_of_mem _ (h.live b hb)
  nodup := List.nodup_cons.mpr ⟨ha, h.nodup⟩
  fresh j n hj := by
    show n ∈ a :: s.live ∧ n ∉ s.tail :: l ∧ (s.allocate a x).next n = none
    rw [next_allocate]
    rcases producer_setProducer hj with ⟨-, hn⟩ | ⟨-, hj⟩
    · obtain rfl := ProducerPc.exchange.inj hn
      exact ⟨List.mem_cons_self, fun hm => ha (h.live _ hm), Function.update_self ..⟩
    · obtain ⟨hlive, hl, hnext⟩ := h.fresh j n hj
      have hne : n ≠ a := fun e => ha (e ▸ hlive)
      exact ⟨List.mem_cons_of_mem _ hlive, hl, by rw [Function.update_of_ne hne, hnext]⟩
  distinct j k n hj hk := by
    rcases producer_setProducer hj with ⟨rfl, hn⟩ | ⟨-, hj⟩ <;>
      rcases producer_setProducer hk with ⟨rfl, hn'⟩ | ⟨-, hk⟩
    · rfl
    · exact absurd (ProducerPc.exchange.inj hn ▸ (h.fresh k n hk).1) ha
    · exact absurd (ProducerPc.exchange.inj hn' ▸ (h.fresh j n hj).1) ha
    · exact h.distinct j k n hj hk
  consumer := by
    have hc := h.consumer
    show ConsumerKnows _ l s.consumer
    cases hpc : s.consumer with
    | idle => trivial
    | loadNext t => rw [hpc] at hc; exact hc
    | storeTail t n =>
      rw [hpc] at hc
      obtain ⟨ht, hn⟩ := hc
      refine ⟨ht, ?_⟩
      show (s.allocate a x).next t = some n
      rw [next_allocate, Function.update_of_ne, hn]
      rintro rfl
      exact ha (ht ▸ h.live _ List.mem_cons_self)
    | delete t r =>
      rw [hpc] at hc
      obtain ⟨ht, hl, hne⟩ := hc
      refine ⟨List.mem_cons_of_mem _ ht, hl, fun j hj => ?_⟩
      rcases producer_setProducer hj with ⟨-, hn⟩ | ⟨-, hj⟩
      · exact ha (ProducerPc.exchange.inj hn ▸ ht)
      · exact hne j hj
  fault := h.fault

theorem Inv.exchange (h : s.Inv l) {i : ι} {n : ℕ} (hi : s.producer i = .exchange n) :
    (((s.setHead n).logExchange i (s.data n)).setProducer i (.link n s.head)).Inv (l ++ [n]) where
  chain := by
    obtain ⟨-, hn, hnext⟩ := h.fresh i n hi
    refine h.chain.exchange h.head hn hnext (i := i) (fun x y hp => ?_) fun j x y => ?_
    · rw [Pending, hi] at hp
      cases hp
    · rw [pending_setProducer]
      split_ifs with e
      · subst e
        simp [Pending, hi, eq_comm, and_comm]
      · simp only [e, false_and, or_false]
        rfl
  head := by
    show (s.tail :: (l ++ [n])).getLast? = some n
    rw [← List.cons_append, List.getLast?_concat]
  fifo := by
    show (s.exchanged ++ [(i, s.data n)]).map Prod.snd = _ ++ (l ++ [n]).map s.data
    rw [List.map_append, h.fifo, List.map_append, List.append_assoc]
    rfl
  live b hb := by
    rw [← List.cons_append] at hb
    rcases List.mem_append.mp hb with hb | hb
    · exact h.live b hb
    · exact List.mem_singleton.mp hb ▸ (h.fresh i n hi).1
  nodup := h.nodup
  fresh j m hj := by
    rcases producer_setProducer hj with ⟨-, hm⟩ | ⟨hji, hj⟩
    · cases hm
    · obtain ⟨hlive, hm, hnext⟩ := h.fresh j m hj
      refine ⟨hlive, ?_, hnext⟩
      rw [← List.cons_append, List.mem_append, List.mem_singleton]
      rintro (hm' | rfl)
      · exact hm hm'
      · exact hji (h.distinct j i _ hj hi)
  distinct j k m hj hk := by
    rcases producer_setProducer hj with ⟨-, hm⟩ | ⟨-, hj⟩
    · cases hm
    · rcases producer_setProducer hk with ⟨-, hm⟩ | ⟨-, hk⟩
      · cases hm
      · exact h.distinct j k m hj hk
  consumer := by
    have hc := h.consumer
    show ConsumerKnows _ _ s.consumer
    cases hpc : s.consumer with
    | idle => trivial
    | loadNext t => rw [hpc] at hc; exact hc
    | storeTail t m => rw [hpc] at hc; exact hc
    | delete t r =>
      rw [hpc] at hc
      obtain ⟨ht, hl, hne⟩ := hc
      refine ⟨ht, ?_, fun j hj => ?_⟩
      · rw [← List.cons_append, List.mem_append, List.mem_singleton]
        rintro (hm | rfl)
        · exact hl hm
        · exact hne i hi
      · rcases producer_setProducer hj with ⟨-, hm⟩ | ⟨-, hj⟩
        · cases hm
        · exact hne j hj
  fault := h.fault

theorem Inv.link (h : s.Inv l) {i : ι} {n p : ℕ} (hi : s.producer i = .link n p) :
    (((s.touch p).setNext p (some n)).setProducer i .idle).Inv l where
  chain := by
    show Chain ((s.touch p).setNext p (some n)).next _ _
    rw [next_setNext]
    refine h.chain.store (i := i) hi (fun x y hp => ?_) fun j x y => ?_
    · rw [Pending, hi] at hp
      exact (ProducerPc.link.inj hp).2.symm
    · rw [pending_setProducer]
      split_ifs with e
      · simp [e]
      · simp only [e, ne_eq, not_false_eq_true, and_true]
        rfl
  head := h.head
  fifo := by
    show _ = _ ++ l.map ((s.touch p).setNext p (some n)).data
    rw [data_setNext]
    exact h.fifo
  live := h.live
  nodup := h.nodup
  fresh j m hj := by
    show _ ∧ _ ∧ ((s.touch p).setNext p (some n)).next m = none
    rw [next_setNext]
    rcases producer_setProducer hj with ⟨-, hm⟩ | ⟨-, hj⟩
    · cases hm
    · obtain ⟨hlive, hm, hnext⟩ := h.fresh j m hj
      refine ⟨hlive, hm, ?_⟩
      rw [Function.update_of_ne]
      · exact hnext
      · rintro rfl
        exact hm (mem_of_adjacent (h.chain.pending i _ n hi).1).1
  distinct j k m hj hk := by
    rcases producer_setProducer hj with ⟨-, hm⟩ | ⟨-, hj⟩
    · cases hm
    · rcases producer_setProducer hk with ⟨-, hm⟩ | ⟨-, hk⟩
      · cases hm
      · exact h.distinct j k m hj hk
  consumer := by
    have hc := h.consumer
    show ConsumerKnows _ _ s.consumer
    cases hpc : s.consumer with
    | idle => trivial
    | loadNext t => rw [hpc] at hc; exact hc
    | storeTail t m =>
      rw [hpc] at hc
      refine ⟨hc.1, ?_⟩
      show ((s.touch p).setNext p (some n)).next t = some m
      rw [next_setNext, Function.update_of_ne]
      · exact hc.2
      · rintro rfl
        have := (h.chain.pending i _ n hi).2
        rw [hc.2] at this
        cases this
    | delete t r =>
      rw [hpc] at hc
      refine ⟨hc.1, hc.2.1, fun j hj => ?_⟩
      rcases producer_setProducer hj with ⟨-, hm⟩ | ⟨-, hj⟩
      · cases hm
      · exact hc.2.2 j hj
  fault := by
    have hp := h.live p (mem_of_adjacent (h.chain.pending i p n hi).1).1
    exact (touch_fault_of_mem hp).trans h.fault

theorem inv_step (h : s.Inv l) (hs : Step s s') : ∃ l', s'.Inv l' := by
  have hk := h.consumer
  have htail : s.tail ∈ s.live := h.live _ List.mem_cons_self
  cases hs with
  | enqueue hi ha => exact ⟨l, h.enqueue hi ha⟩
  | exchange hi => exact ⟨_, h.exchange hi⟩
  | link hi => exact ⟨l, h.link hi⟩
  | loadTail hc => exact ⟨l, h.setConsumer rfl (by rw [hc]; rfl)⟩
  | empty hc hn =>
    rw [hc] at hk
    exact ⟨l, (h.touch (hk ▸ htail)).setConsumer trivial (by rw [touch_consumer, hc]; rfl)⟩
  | loadNext hc hn =>
    rw [hc] at hk
    exact ⟨l, (h.touch (hk ▸ htail)).setConsumer ⟨hk, hn⟩ (by rw [touch_consumer, hc]; rfl)⟩
  | storeTail hc =>
    obtain ⟨l', -, h'⟩ := h.storeTail hc
    exact ⟨l', h'⟩
  | delete hc => exact ⟨l, h.delete hc⟩

/-! ## Order of each producer -/

/-- The call of producer `i` that has not exchanged yet. -/
def calling (s : MPSCQueueNonIntrusive ι β) (i : ι) : List (ι × β) :=
  match s.producer i with
  | .exchange n => [(i, s.data n)]
  | _ => []

/-- Each producer exchanges in the order of its calls. -/
def Ordered (s : MPSCQueueNonIntrusive ι β) : Prop :=
  ∀ i, s.enqueued.filter (fun e => e.1 = i) =
    s.exchanged.filter (fun e => e.1 = i) ++ s.calling i

omit [DecidableEq ι] in
theorem calling_congr {j : ι} (hp : s'.producer j = s.producer j)
    (hd : ∀ n, s.producer j = .exchange n → s'.data n = s.data n) :
    s'.calling j = s.calling j := by
  unfold calling
  rw [hp]
  cases hj : s.producer j with
  | idle => rfl
  | link n p => rfl
  | exchange n => simp only [hd n hj]

theorem ordered_enqueue (h : s.Inv l) (ho : s.Ordered) {i : ι} {x : β} {a : ℕ}
    (hi : s.producer i = .idle) (ha : a ∉ s.live) :
    (((s.allocate a x).logEnqueue i x).setProducer i (.exchange a)).Ordered := by
  intro j
  show (s.enqueued ++ [(i, x)]).filter _ = s.exchanged.filter _ ++ _
  rw [List.filter_append, ho j]
  by_cases e : j = i
  · subst e
    have hnew : (((s.allocate a x).logEnqueue j x).setProducer j (.exchange a)).calling j =
        [(j, x)] := by
      simp [calling, data]
    rw [hnew]
    simp [calling, hi]
  · have hsame : (((s.allocate a x).logEnqueue i x).setProducer i (.exchange a)).calling j =
        s.calling j := by
      refine calling_congr (Function.update_of_ne e _ _) fun n hj => data_allocate_of_ne ?_ x
      rintro rfl
      exact ha (h.fresh j n hj).1
    rw [hsame]
    simp [Ne.symm e]

theorem ordered_exchange (ho : s.Ordered) {i : ι} {n : ℕ} (hi : s.producer i = .exchange n) :
    (((s.setHead n).logExchange i (s.data n)).setProducer i (.link n s.head)).Ordered := by
  intro j
  show s.enqueued.filter _ = (s.exchanged ++ [(i, s.data n)]).filter _ ++ _
  rw [List.filter_append, ho j]
  by_cases e : j = i
  · subst e
    simp [calling, hi]
  · have hsame : (((s.setHead n).logExchange i (s.data n)).setProducer i (.link n s.head)).calling
        j = s.calling j :=
      calling_congr (Function.update_of_ne e _ _) fun _ _ => rfl
    rw [hsame]
    simp [Ne.symm e]

theorem ordered_link (ho : s.Ordered) {i : ι} {n p : ℕ} (hi : s.producer i = .link n p) :
    (((s.touch p).setNext p (some n)).setProducer i .idle).Ordered := by
  intro j
  show s.enqueued.filter _ = s.exchanged.filter _ ++ _
  rw [ho j]
  by_cases e : j = i
  · subst e
    simp [calling, hi]
  · have hsame : (((s.touch p).setNext p (some n)).setProducer i .idle).calling j =
        s.calling j :=
      calling_congr (Function.update_of_ne e _ _) fun m _ =>
        congrFun (data_setNext (s := s.touch p) p (some n)) m
    rw [hsame]

theorem ordered_step (h : s.Inv l) (ho : s.Ordered) (hs : Step s s') : s'.Ordered := by
  cases hs with
  | enqueue hi ha => exact ordered_enqueue h ho hi ha
  | exchange hi => exact ordered_exchange ho hi
  | link hi => exact ordered_link ho hi
  | loadTail => exact ho
  | empty => exact ho
  | loadNext => exact ho
  | storeTail => exact ho
  | delete => exact ho

end MPSCQueueNonIntrusive

theorem inv_of_mpscQueueNonIntrusive {ι : Type v} {β : Type u} [DecidableEq ι]
    {s : MPSCQueueNonIntrusive ι β} (h : (mpscQueueNonIntrusive ι β).Reachable s) :
    (∃ l, s.Inv l) ∧ s.Ordered := by
  refine h.invariant (P := fun s => (∃ l, s.Inv l) ∧ s.Ordered) ?_ ?_
  · rintro _ ⟨a, d, rfl⟩
    exact ⟨⟨[], MPSCQueueNonIntrusive.inv_initial a d⟩, fun i => rfl⟩
  · rintro s a s' _ ⟨⟨l, hl⟩, ho⟩ _ hs
    have hs := MPSCQueueNonIntrusive.step_cases hs
    exact ⟨MPSCQueueNonIntrusive.inv_step hl hs, MPSCQueueNonIntrusive.ordered_step hl ho hs⟩

/-- **A queue.** What `Dequeue` has returned is a prefix of the payloads in the order of the exchanges
on `_head`, of each producer in the order of its calls; and when nobody is at work, the links from
`_tail` lead through exactly the nodes with the rest of the payloads. -/
theorem nonIntrusive_fifo (ι : Type v) (β : Type u) [DecidableEq ι] :
    ∀ s, (mpscQueueNonIntrusive ι β).Reachable s →
      s.returned <+: s.exchanged.map Prod.snd ∧
      (∀ i, (s.exchanged.take s.returned.length).filter (fun e => e.1 = i) <+:
        s.enqueued.filter fun e => e.1 = i) ∧
      ((∀ i, s.producer i = .idle) → s.consumer = .idle →
        ∃ l, Follows s.next s.tail l ∧ s.exchanged.map Prod.snd = s.returned ++ l.map s.data) := by
  intro s hs
  obtain ⟨⟨l, hl⟩, ho⟩ := inv_of_mpscQueueNonIntrusive hs
  refine ⟨?_, fun i => ?_, fun hp hc => ⟨l, hl.chain.follows fun i x y h => ?_, ?_⟩⟩
  · rw [hl.fifo, List.append_assoc]
    exact List.prefix_append _ _
  · rw [ho i]
    exact ((List.take_prefix _ _).filter _).trans (List.prefix_append _ _)
  · rw [MPSCQueueNonIntrusive.Pending, hp i] at h
    cases h
  · have := hl.fifo
    rw [hc] at this
    simpa [ConsumerPc.inHand] using this

/-- Two producers exchange and then link in the opposite order; the payload exchanged first is
returned first. -/
theorem nonIntrusive_fifo_two : ∃ s : MPSCQueueNonIntrusive ℕ ℕ,
    s.returned = [20] ∧ s.exchanged.map Prod.snd = [20, 10] ∧
      s.returned <+: s.exchanged.map Prod.snd := by
  obtain ⟨s, hs, hr, he⟩ : ∃ s, (mpscQueueNonIntrusive ℕ ℕ).run (.initial ℕ 0 0)
      [.enqueue 0 10 1, .enqueue 1 20 2, .producer 1, .producer 0, .producer 0, .producer 1,
        .consumer, .consumer, .consumer, .consumer] = some s ∧
      s.returned = [20] ∧ s.exchanged.map Prod.snd = [20, 10] := ⟨_, rfl, rfl, rfl⟩
  exact ⟨s, hr, he, (nonIntrusive_fifo ℕ ℕ s (Machine.Reachable.run (.init ⟨0, 0, rfl⟩) hs)).1⟩

end SelfStudy.Threading
