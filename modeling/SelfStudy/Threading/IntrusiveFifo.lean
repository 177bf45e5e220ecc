import SelfStudy.Threading.Intrusive

/-!
# The intrusive queue is a queue

The invariant treats the call of `Enqueue` inside `Dequeue` as one more producer: `Enqueuing` says
where all these calls stand and that the nodes `l` from `_tail` to `_head` are a chain broken only by
them. The consumer knows that its node is the first of `l` and not the dummy, and when it is about to
enqueue the dummy, that it has seen the node alone.
-/

namespace SelfStudy.Threading

open Lib Intrusive

universe v

namespace MPSCQueueIntrusive

variable {ι : Type v} {s s' : MPSCQueueIntrusive ι}

/-! ## Calls of `Enqueue` -/

/-- The calls of `Enqueue`: one of each producer, and at `none` the one inside `Dequeue`. -/
def enqueuing (s : MPSCQueueIntrusive ι) : Option ι → EnqueuePc
  | some i => s.producer i
  | none => s.consumer.enqueuing

/-- Call `k` is about to store the link from `a` to `b`. -/
def Pending {κ : Type v} (pc : κ → EnqueuePc) (k : κ) (a b : ℕ) : Prop := pc k = .link b a

/-- The chain with the calls of `Enqueue` that stand at `pc`. -/
structure Enqueuing {κ : Type v} (s : MPSCQueueIntrusive ι) (pc : κ → EnqueuePc) (l : List ℕ) :
    Prop where
  chain : Chain s.next (Pending pc) l
  first : l.head? = some s.tail
  last : l.getLast? = some s.head
  fifo : s.exchanged = s.returned ++ l.filter (· ≠ s.dummyPtr)
  hand : ∀ k n, (pc k).hand = some n → n ∉ l
  cleared : ∀ k n, pc k = .exchange n → s.next n = none
  distinct : ∀ j k n, (pc j).hand = some n → (pc k).hand = some n → j = k

variable {κ : Type v} {pc pc' : κ → EnqueuePc} {t : MPSCQueueIntrusive ι} {l : List ℕ}

theorem Enqueuing.tail_mem (h : s.Enqueuing pc l) : s.tail ∈ l :=
  List.mem_of_mem_head? h.first

/-- A call that takes a node into its hand, or none. -/
theorem Enqueuing.update [DecidableEq κ] (h : s.Enqueuing pc l) {k : κ} {x : EnqueuePc}
    (hx : ∀ n p, x ≠ .link n p) (hk : ∀ n p, pc k ≠ .link n p) (hex : ∀ n, x ≠ .exchange n)
    (hhand : ∀ n, x.hand = some n → n ∉ l ∧ ∀ j, (pc j).hand ≠ some n) :
    s.Enqueuing (Function.update pc k x) l where
  chain := by
    refine h.chain.congr_pending fun j a b => ?_
    unfold Pending
    by_cases e : j = k
    · subst e
      rw [Function.update_self]
      exact iff_of_false (hx b a) (hk b a)
    · rw [Function.update_of_ne e]
  first := h.first
  last := h.last
  fifo := h.fifo
  hand j n hj := by
    by_cases e : j = k
    · subst e
      rw [Function.update_self] at hj
      exact (hhand n hj).1
    · rw [Function.update_of_ne e] at hj
      exact h.hand j n hj
  cleared j n hj := by
    by_cases e : j = k
    · subst e
      rw [Function.update_self] at hj
      exact absurd hj (hex n)
    · rw [Function.update_of_ne e] at hj
      exact h.cleared j n hj
  distinct i j n hi hj := by
    by_cases ei : i = k <;> by_cases ej : j = k
    · exact ei.trans ej.symm
    · subst ei
      rw [Function.update_self] at hi
      rw [Function.update_of_ne ej] at hj
      exact absurd hj ((hhand n hi).2 j)
    · subst ej
      rw [Function.update_self] at hj
      rw [Function.update_of_ne ei] at hi
      exact absurd hi ((hhand n hj).2 i)
    · rw [Function.update_of_ne ei] at hi
      rw [Function.update_of_ne ej] at hj
      exact h.distinct i j n hi hj

section Calls

variable [DecidableEq κ] {k : κ} {n p : ℕ}

/-- A step of a call takes no new node into its hand. -/
theorem hand_of_update {x : EnqueuePc} (hx : ∀ m, x.hand = some m → (pc k).hand = some m) {j : κ}
    {m : ℕ} (hj : (Function.update pc k x j).hand = some m) : (pc j).hand = some m := by
  by_cases e : j = k
  · subst e
    rw [Function.update_self] at hj
    exact hx m hj
  · rwa [Function.update_of_ne e] at hj

theorem Enqueuing.clear (h : s.Enqueuing pc l) (hk : pc k = .clear n) :
    (s.setNext n none).Enqueuing (Function.update pc k (.exchange n)) l where
  chain := by
    have hn : n ∉ l := h.hand k n (by rw [hk]; rfl)
    refine (h.chain.congr_pending fun j a b => ?_).frame fun x hx => ?_
    · unfold Pending
      by_cases e : j = k
      · subst e
        simp [hk]
      · rw [Function.update_of_ne e]
    · have hne : x ≠ n := fun e => hn (e ▸ hx)
      exact Function.update_of_ne hne _ _
  first := h.first
  last := h.last
  fifo := h.fifo
  hand j m hj := h.hand j m (hand_of_update (by simp [hk, EnqueuePc.hand]) hj)
  cleared j m hj := by
    rw [setNext_next]
    by_cases e : m = n
    · subst e
      exact Function.update_self ..
    · rw [Function.update_of_ne e]
      refine h.cleared j m ?_
      by_cases ej : j = k
      · subst ej
        rw [Function.update_self] at hj
        exact absurd (EnqueuePc.exchange.inj hj).symm e
      · rwa [Function.update_of_ne ej] at hj
  distinct i j m hi hj :=
    h.distinct i j m (hand_of_update (by simp [hk, EnqueuePc.hand]) hi)
      (hand_of_update (by simp [hk, EnqueuePc.hand]) hj)

theorem Enqueuing.exchange (h : s.Enqueuing pc l) (hk : pc k = .exchange n) :
    (s.setHead n).Enqueuing (Function.update pc k (.link n s.head)) (l ++ [n]) where
  chain := by
    have hn : n ∉ l := h.hand k n (by rw [hk]; rfl)
    refine h.chain.exchange h.last hn (h.cleared k n hk) (i := k) (fun x y hp => ?_) fun j x y => ?_
    · rw [Pending, hk] at hp
      cases hp
    · unfold Pending
      by_cases e : j = k
      · subst e
        simp [hk, eq_comm, and_comm]
      · simp [e]
  first := by
    rw [List.head?_append, h.first]
    rfl
  last := List.getLast?_concat ..
  fifo := by
    rw [setHead_exchanged, List.filter_append]
    show _ = s.returned ++ (l.filter (· ≠ s.dummyPtr) ++ [n].filter (· ≠ s.dummyPtr))
    split_ifs with hd
    · simp [h.fifo, hd]
    · simp [h.fifo, hd]
  hand j m hj := by
    have hm := hand_of_update (x := .link n s.head) (by simp [EnqueuePc.hand]) hj
    rw [List.mem_append, List.mem_singleton]
    rintro (hl | rfl)
    · exact h.hand j m hm hl
    · obtain rfl := h.distinct j k m hm (by rw [hk]; rfl)
      rw [Function.update_self] at hj
      cases hj
  cleared j m hj := by
    by_cases e : j = k
    · subst e
      rw [Function.update_self] at hj
      cases hj
    · rw [Function.update_of_ne e] at hj
      exact h.cleared j m hj
  distinct i j m hi hj :=
    h.distinct i j m (hand_of_update (by simp [EnqueuePc.hand]) hi)
      (hand_of_update (by simp [EnqueuePc.hand]) hj)

theorem Enqueuing.link (h : s.Enqueuing pc l) (hk : pc k = .link n p) :
    (s.setNext p (some n)).Enqueuing (Function.update pc k .idle) l where
  chain := by
    refine h.chain.store (i := k) hk (fun x y hp => ?_) fun j x y => ?_
    · rw [Pending, hk] at hp
      exact (EnqueuePc.link.inj hp).2.symm
    · unfold Pending
      by_cases e : j = k
      · subst e
        simp
      · simp [e]
  first := h.first
  last := h.last
  fifo := h.fifo
  hand j m hj := h.hand j m (hand_of_update (by simp [EnqueuePc.hand]) hj)
  cleared j m hj := by
    by_cases e : j = k
    · subst e
      rw [Function.update_self] at hj
      cases hj
    · rw [Function.update_of_ne e] at hj
      have hm : m ∉ l := h.hand j m (by rw [hj]; rfl)
      rw [setNext_next, Function.update_of_ne, h.cleared j m hj]
      rintro rfl
      exact hm (mem_of_adjacent (h.chain.pending k _ n hk).1).1
  distinct i j m hi hj :=
    h.distinct i j m (hand_of_update (by simp [EnqueuePc.hand]) hi)
      (hand_of_update (by simp [EnqueuePc.hand]) hj)

/-- What a step of a call of `Enqueue` does besides: the node in its hand may join the chain, and
it touches nothing but links and `_head`. -/
structure Joins (s t : MPSCQueueIntrusive ι) (x x' : EnqueuePc) (l l' : List ℕ) : Prop where
  dummyPtr : t.dummyPtr = s.dummyPtr
  tail : t.tail = s.tail
  producer : t.producer = s.producer
  consumer : t.consumer = s.consumer
  inside : t.inside = s.inside
  returned : t.returned = s.returned
  next : ∀ a b, a ∈ l → s.next a = some b → t.next a = some b
  mem : ∀ a ∈ l', a ∈ l ∨ x.hand = some a
  hand : ∀ a, x'.hand = some a → x.hand = some a

/-- A step of a call of `Enqueue`. -/
theorem Enqueuing.step {x : EnqueuePc} (h : s.Enqueuing pc l)
    (hs : s.enqueueStep (pc k) = some (t, x)) :
    ∃ l', t.Enqueuing (Function.update pc k x) l' ∧ Joins s t (pc k) x l l' := by
  cases hk : pc k with
  | idle => rw [hk] at hs; cases hs
  | clear n =>
    rw [hk] at hs
    obtain ⟨rfl, rfl⟩ := Prod.mk.inj (Option.some.inj hs)
    have hn : n ∉ l := h.hand k n (by rw [hk]; rfl)
    refine ⟨l, h.clear hk, rfl, rfl, rfl, rfl, rfl, rfl, fun a b ha hab => ?_, fun a ha => .inl ha,
      fun a ha => ha⟩
    have hne : a ≠ n := fun e => hn (e ▸ ha)
    rw [setNext_next, Function.update_of_ne hne, hab]
  | exchange n =>
    rw [hk] at hs
    obtain ⟨rfl, rfl⟩ := Prod.mk.inj (Option.some.inj hs)
    refine ⟨l ++ [n], h.exchange hk, rfl, rfl, rfl, rfl, rfl, rfl, fun a b _ hab => hab,
      fun a ha => ?_, fun a ha => by cases ha⟩
    rcases List.mem_append.mp ha with ha | ha
    · exact .inl ha
    · exact .inr (List.mem_singleton.mp ha ▸ rfl)
  | link n p =>
    rw [hk] at hs
    obtain ⟨rfl, rfl⟩ := Prod.mk.inj (Option.some.inj hs)
    refine ⟨l, h.link hk, rfl, rfl, rfl, rfl, rfl, rfl, fun a b _ hab => ?_, fun a ha => .inl ha,
      fun a ha => by cases ha⟩
    rw [setNext_next, Function.update_of_ne, hab]
    rintro rfl
    rw [(h.chain.pending k _ n hk).2] at hab
    cases hab

end Calls

/-! ## The steps of the consumer -/

/-- The consumer leaves the first node behind, its link being there. -/
theorem Enqueuing.advance {a b : ℕ} (h : s.Enqueuing pc (a :: l)) (hn : s.next a = some b)
    (hnext : t.next = s.next) (hhead : t.head = s.head) (htail : t.tail = b)
    (hf : t.exchanged = t.returned ++ l.filter (· ≠ t.dummyPtr)) : t.Enqueuing pc l where
  chain := hnext ▸ h.chain.advance hn
  first := htail ▸ h.chain.head_of_next hn
  last := by
    have hb := h.chain.head_of_next hn
    have hlast := h.last
    cases l with
    | nil => cases hb
    | cons x l =>
      rw [List.getLast?_cons_cons] at hlast
      rw [hlast, hhead]
  fifo := hf
  hand k n hk hm := h.hand k n hk (List.mem_cons_of_mem _ hm)
  cleared k n hk := by
    rw [hnext]
    exact h.cleared k n hk
  distinct := h.distinct

/-- What the consumer knows about its node: it is the first of the chain, and not the dummy. -/
def ConsumerKnows (s : MPSCQueueIntrusive ι) : DequeuePc → Prop
  | .idle => True
  | .loadNext t => t = s.tail
  | .skip n => s.tail = s.dummyPtr ∧ s.next s.tail = some n
  | .storeTail t n => (t = s.tail ∧ t ≠ s.dummyPtr) ∧ s.next t = some n
  | .enqueueDummy t pc => (t = s.tail ∧ t ≠ s.dummyPtr) ∧ ∀ n, pc.hand = some n → n = s.dummyPtr
  | .loadAgain t | .loadHead t | .reload t => t = s.tail ∧ t ≠ s.dummyPtr

/-- The nodes `l` are the queue, with the dummy in it or not. -/
structure Inv (s : MPSCQueueIntrusive ι) (l : List ℕ) : Prop where
  calls : s.Enqueuing s.enqueuing l
  inside : ∀ n ∈ l, n ≠ s.dummyPtr → n ∈ s.inside
  owned : ∀ i n, (s.producer i).hand = some n → n ∈ s.inside ∧ n ≠ s.dummyPtr
  consumer : s.ConsumerKnows s.consumer
  dummy : s.dummyPtr ∉ s.returned

theorem Enqueuing.setConsumer (h : s.Enqueuing pc l) (c : DequeuePc) :
    (s.setConsumer c).Enqueuing pc l :=
  ⟨h.chain, h.first, h.last, h.fifo, h.hand, h.cleared, h.distinct⟩

/-- What the consumer knows of its node after it has loaded the link of the node. -/
theorem knows_afterLoad {t : ℕ} (ht : t = s.tail ∧ t ≠ s.dummyPtr) :
    s.ConsumerKnows (afterLoad t (s.next t)) := by
  cases hn : s.next t with
  | none => exact ht
  | some n => exact ⟨ht, hn⟩

theorem enqueuing_afterLoad (t : ℕ) (n : Option ℕ) : (afterLoad t n).enqueuing = .idle := by
  cases n <;> rfl

theorem enqueuing_afterEnqueue (t : ℕ) (x : EnqueuePc) : (afterEnqueue t x).enqueuing = x := by
  cases x <;> rfl

/-- The chain has shrunk to the node of the consumer. -/
theorem Inv.eq_singleton (h : s.Inv l) (ht : s.tail = s.head) : l = [s.tail] := by
  have hfirst := h.calls.first
  have hlast := h.calls.last
  have hnodup := h.calls.chain.nodup
  cases l with
  | nil => cases hfirst
  | cons a l =>
    obtain rfl : a = s.tail := by simpa using hfirst
    cases l with
    | nil => rfl
    | cons b l =>
      rw [List.getLast?_cons_cons, ← ht] at hlast
      exact absurd (List.mem_of_getLast? hlast) (List.nodup_cons.mp hnodup).1

theorem Joins.enqueuing {x x' : EnqueuePc} {l' : List ℕ} (h : Joins s t x x' l l') :
    t.enqueuing = s.enqueuing := by
  funext k
  cases k <;> simp [MPSCQueueIntrusive.enqueuing, h.producer, h.consumer]

/-- A step of a call of `Enqueue` leaves what the consumer knows. -/
theorem Joins.knows {x x' : EnqueuePc} {l' : List ℕ} (h : Joins s t x x' l l') (hl : s.tail ∈ l)
    {c : DequeuePc} (hk : s.ConsumerKnows c) : t.ConsumerKnows c := by
  cases c with
  | idle => trivial
  | loadNext a => exact hk.trans h.tail.symm
  | skip n =>
    obtain ⟨hd, hn⟩ := hk
    refine ⟨?_, ?_⟩
    · rw [h.tail, h.dummyPtr, hd]
    · rw [h.tail]
      exact h.next _ _ hl hn
  | storeTail a n =>
    obtain ⟨⟨rfl, hd⟩, hn⟩ := hk
    exact ⟨⟨h.tail.symm, h.dummyPtr ▸ hd⟩, h.next _ _ hl hn⟩
  | enqueueDummy a pc =>
    obtain ⟨⟨rfl, hd⟩, hp⟩ := hk
    exact ⟨⟨h.tail.symm, h.dummyPtr ▸ hd⟩, fun n hn => (hp n hn).trans h.dummyPtr.symm⟩
  | loadAgain a => exact ⟨hk.1.trans h.tail.symm, h.dummyPtr ▸ hk.2⟩
  | loadHead a => exact ⟨hk.1.trans h.tail.symm, h.dummyPtr ▸ hk.2⟩
  | reload a => exact ⟨hk.1.trans h.tail.symm, h.dummyPtr ▸ hk.2⟩

/-- The nodes of the chain behind the node of the consumer. -/
theorem Inv.exists_cons (h : s.Inv l) {n : ℕ} (hn : s.next s.tail = some n) :
    ∃ l', l = s.tail :: n :: l' := by
  have hfirst := h.calls.first
  have hchain := h.calls.chain
  cases l with
  | nil => cases hfirst
  | cons a l =>
    obtain rfl : a = s.tail := by simpa using hfirst
    obtain ⟨l', rfl⟩ := List.head?_eq_some_iff.mp (hchain.head_of_next hn)
    exact ⟨l', rfl⟩

theorem Inv.skip (h : s.Inv l) {n : ℕ} (hc : s.consumer = .skip n) :
    ∃ l', ((s.setTail n).setConsumer (.loadAgain n)).Inv l' := by
  have hk := h.consumer
  rw [hc] at hk
  obtain ⟨hd, hn⟩ := hk
  obtain ⟨l', rfl⟩ := h.exists_cons hn
  have hfifo := h.calls.fifo
  have hnodup := h.calls.chain.nodup
  rw [hd] at hfifo hnodup
  refine ⟨n :: l', ?_, fun m hm => h.inside m (List.mem_cons_of_mem _ hm), h.owned, ⟨rfl, ?_⟩,
    h.dummy⟩
  · have hsame : ((s.setTail n).setConsumer (.loadAgain n)).enqueuing = s.enqueuing := by
      funext k
      cases k with
      | none => simp [enqueuing, hc, DequeuePc.enqueuing]
      | some i => rfl
    rw [hsame]
    refine h.calls.advance hn rfl rfl rfl (hfifo.trans ?_)
    simp
  · show n ≠ s.dummyPtr
    rintro rfl
    simp at hnodup

theorem Inv.storeTail (h : s.Inv l) {a n : ℕ} (hc : s.consumer = .storeTail a n) :
    ∃ l', (((s.setTail n).release a).setConsumer .idle).Inv l' := by
  have hk := h.consumer
  rw [hc] at hk
  obtain ⟨⟨rfl, hd⟩, hn⟩ := hk
  obtain ⟨l', rfl⟩ := h.exists_cons hn
  have hnot : s.tail ∉ n :: l' := (List.nodup_cons.mp h.calls.chain.nodup).1
  refine ⟨n :: l', ?_, fun m hm hmd => ?_, fun j m hj => ?_, trivial, ?_⟩
  · have hsame : (((s.setTail n).release s.tail).setConsumer .idle).enqueuing = s.enqueuing := by
      funext k
      cases k with
      | none => simp [enqueuing, hc, DequeuePc.enqueuing]
      | some i => rfl
    rw [hsame]
    refine h.calls.advance hn rfl rfl rfl (h.calls.fifo.trans ?_)
    simp [hd]
  · have hne : m ≠ s.tail := fun e => hnot (e ▸ hm)
    exact (List.mem_erase_of_ne hne).mpr (h.inside m (List.mem_cons_of_mem _ hm) hmd)
  · have hne : m ≠ s.tail := by
      rintro rfl
      exact h.calls.hand (some j) _ hj List.mem_cons_self
    exact ⟨(List.mem_erase_of_ne hne).mpr (h.owned j m hj).1, (h.owned j m hj).2⟩
  · show s.dummyPtr ∉ s.returned ++ [s.tail]
    rw [List.mem_append, List.mem_singleton, not_or]
    exact ⟨h.dummy, Ne.symm hd⟩

theorem inv_initial (d : ℕ) (next : ℕ → Option ℕ) : (initial ι d next).Inv [d] where
  calls :=
    { chain := .singleton (Function.update_self ..) fun k a b hk => by
        cases k <;> cases hk
      first := rfl
      last := rfl
      fifo := by simp [initial]
      hand := fun k n hk => by cases k <;> cases hk
      cleared := fun k n hk => by cases k <;> cases hk
      distinct := fun j k n hj => by cases j <;> cases hj }
  inside n hn hd := absurd (List.mem_singleton.mp hn) hd
  owned i n h := by cases h
  consumer := trivial
  dummy := by simp [initial]

/-! ## Runs -/

variable [DecidableEq ι]

theorem enqueuing_setConsumer (c : DequeuePc) :
    (s.setConsumer c).enqueuing = Function.update s.enqueuing none c.enqueuing := by
  funext k
  cases k with
  | none => rw [Function.update_self]; rfl
  | some i => rw [Function.update_of_ne (by simp)]; rfl

theorem enqueuing_setProducer (i : ι) (x : EnqueuePc) :
    (s.setProducer i x).enqueuing = Function.update s.enqueuing (some i) x := by
  funext k
  cases k with
  | none => rw [Function.update_of_ne (by simp)]; rfl
  | some j =>
    by_cases e : j = i
    · subst e
      simp [enqueuing]
    · simp [enqueuing, e]

theorem Enqueuing.setProducer (h : s.Enqueuing pc l) (i : ι) (x : EnqueuePc) :
    (s.setProducer i x).Enqueuing pc l :=
  ⟨h.chain, h.first, h.last, h.fifo, h.hand, h.cleared, h.distinct⟩

/-- A step in which the consumer only reads. -/
theorem Inv.read {c : DequeuePc} (h : s.Inv l) (hs : s.consumer.enqueuing = .idle)
    (hc : c.enqueuing = .idle) (hk : s.ConsumerKnows c) : (s.setConsumer c).Inv l where
  calls := by
    have hsame : (s.setConsumer c).enqueuing = s.enqueuing := by
      rw [enqueuing_setConsumer, hc, ← hs]
      exact Function.update_eq_self (a := none) s.enqueuing
    rw [hsame]
    exact h.calls.setConsumer c
  inside := h.inside
  owned := h.owned
  consumer := hk
  dummy := h.dummy

/-- The consumer starts to enqueue the dummy. -/
theorem Inv.loadHead {t : ℕ} (h : s.Inv l) (hc : s.consumer = .loadHead t) (ht : t = s.head) :
    (s.setConsumer (.enqueueDummy t (.clear s.dummyPtr))).Inv l where
  calls := by
    have hk := h.consumer
    rw [hc] at hk
    have hnone : s.enqueuing none = .idle := by simp [enqueuing, hc, DequeuePc.enqueuing]
    rw [enqueuing_setConsumer]
    refine Enqueuing.setConsumer (h.calls.update ?_ ?_ ?_ fun n hn => ⟨?_, fun j hj => ?_⟩) _
    · simp [DequeuePc.enqueuing]
    · simp [hnone]
    · simp [DequeuePc.enqueuing]
    · obtain rfl : s.dummyPtr = n := by simpa [DequeuePc.enqueuing, EnqueuePc.hand] using hn
      rw [h.eq_singleton (hk.1.symm.trans ht), List.mem_singleton, ← hk.1]
      exact Ne.symm hk.2
    · obtain rfl : s.dummyPtr = n := by simpa [DequeuePc.enqueuing, EnqueuePc.hand] using hn
      cases j with
      | none => rw [hnone] at hj; cases hj
      | some i => exact (h.owned i _ hj).2 rfl
  inside := h.inside
  owned := h.owned
  consumer := by
    have hk := h.consumer
    rw [hc] at hk
    exact ⟨hk, fun n hn => (Option.some.inj hn).symm⟩
  dummy := h.dummy

theorem Inv.producer (h : s.Inv l) {i : ι} {x : EnqueuePc}
    (hs : s.enqueueStep (s.producer i) = some (t, x)) : ∃ l', (t.setProducer i x).Inv l' := by
  obtain ⟨l', hE, hJ⟩ := h.calls.step (k := some i) hs
  refine ⟨l', ?_, fun n hn hd => ?_, fun j n hj => ?_, ?_, ?_⟩
  · rw [enqueuing_setProducer, hJ.enqueuing]
    exact hE.setProducer i x
  · show n ∈ t.inside
    rw [hJ.inside]
    rcases hJ.mem n hn with hn | hn
    · exact h.inside n hn (hJ.dummyPtr ▸ hd)
    · exact (h.owned i n hn).1
  · show n ∈ t.inside ∧ n ≠ t.dummyPtr
    rw [hJ.inside, hJ.dummyPtr]
    rw [setProducer_producer, hJ.producer] at hj
    have hhand : ∀ n, x.hand = some n → (s.producer i).hand = some n := hJ.hand
    exact h.owned j n (hand_of_update hhand hj)
  · show t.ConsumerKnows t.consumer
    rw [hJ.consumer]
    exact hJ.knows h.calls.tail_mem h.consumer
  · show t.dummyPtr ∉ t.returned
    rw [hJ.dummyPtr, hJ.returned]
    exact h.dummy

theorem Inv.enqueueDummy (h : s.Inv l) {a : ℕ} {x x' : EnqueuePc}
    (hc : s.consumer = .enqueueDummy a x) (hs : s.enqueueStep x = some (t, x')) :
    ∃ l', (t.setConsumer (afterEnqueue a x')).Inv l' := by
  have hnone : s.enqueuing none = x := by simp [enqueuing, hc, DequeuePc.enqueuing]
  have hk := h.consumer
  rw [hc] at hk
  obtain ⟨hk, hx⟩ := hk
  obtain ⟨l', hE, hJ⟩ := h.calls.step (k := none) (hnone.symm ▸ hs)
  rw [hnone] at hJ
  refine ⟨l', ?_, fun n hn hd => ?_, fun j n hj => ?_, ?_, ?_⟩
  · rw [enqueuing_setConsumer, hJ.enqueuing, enqueuing_afterEnqueue]
    exact hE.setConsumer _
  · show n ∈ t.inside
    rw [hJ.inside]
    rcases hJ.mem n hn with hn | hn
    · exact h.inside n hn (hJ.dummyPtr ▸ hd)
    · exact absurd ((hx n hn).trans hJ.dummyPtr.symm) hd
  · show n ∈ t.inside ∧ n ≠ t.dummyPtr
    rw [hJ.inside, hJ.dummyPtr]
    exact h.owned j n (hJ.producer ▸ hj)
  · have ht : a = t.tail ∧ a ≠ t.dummyPtr := ⟨hk.1.trans hJ.tail.symm, hJ.dummyPtr ▸ hk.2⟩
    have hx' : ∀ n, x'.hand = some n → n = t.dummyPtr := fun n hn =>
      (hx n (hJ.hand n hn)).trans hJ.dummyPtr.symm
    show t.ConsumerKnows (afterEnqueue a x')
    cases x' with
    | idle => exact ht
    | clear n => exact ⟨ht, hx'⟩
    | exchange n => exact ⟨ht, hx'⟩
    | link n p => exact ⟨ht, hx'⟩
  · show t.dummyPtr ∉ t.returned
    rw [hJ.dummyPtr, hJ.returned]
    exact h.dummy

theorem Inv.enqueue (h : s.Inv l) {i : ι} {n : ℕ} (hi : s.producer i = .idle)
    (hn : n ∉ s.inside) (hd : n ≠ s.dummyPtr) : ((s.handIn n).setProducer i (.clear n)).Inv l where
  calls := by
    have hin : (s.handIn n).enqueuing = s.enqueuing := by funext k; cases k <;> rfl
    rw [enqueuing_setProducer, hin]
    have hi' : s.enqueuing (some i) = .idle := hi
    have hE := h.calls.update (k := some i) (x := .clear n) (by simp) (by simp [hi']) (by simp)
      fun m hm => by
        obtain rfl : n = m := Option.some.inj hm
        refine ⟨fun hl => hn (h.inside n hl hd), fun j hj => ?_⟩
        cases j with
        | some j => exact hn (h.owned j n hj).1
        | none =>
          have hk := h.consumer
          cases hc : s.consumer <;> rw [enqueuing, hc] at hj <;> try cases hj
          rw [hc] at hk
          exact hd (hk.2 n hj)
    exact ⟨hE.chain, hE.first, hE.last, hE.fifo, hE.hand, hE.cleared, hE.distinct⟩
  inside m hm hd := List.mem_cons_of_mem _ (h.inside m hm hd)
  owned j m hj := by
    show m ∈ n :: s.inside ∧ m ≠ s.dummyPtr
    by_cases e : j = i
    · subst e
      rw [setProducer_producer, Function.update_self] at hj
      obtain rfl : n = m := Option.some.inj hj
      exact ⟨List.mem_cons_self, hd⟩
    · rw [setProducer_producer, Function.update_of_ne e] at hj
      exact ⟨List.mem_cons_of_mem _ (h.owned j m hj).1, (h.owned j m hj).2⟩
  consumer := by
    have hk := h.consumer
    show ConsumerKnows _ s.consumer
    cases hc : s.consumer <;> rw [hc] at hk <;> exact hk
  dummy := h.dummy

theorem inv_step (h : s.Inv l) (hs : Step s s') : ∃ l', s'.Inv l' := by
  have hk := h.consumer
  cases hs with
  | enqueue hi hn hd => exact ⟨l, h.enqueue hi hn hd⟩
  | producer hs => exact h.producer hs
  | loadTail hc => exact ⟨l, h.read (by rw [hc]; rfl) rfl rfl⟩
  | empty hc => exact ⟨l, h.read (by rw [hc]; rfl) rfl trivial⟩
  | loadDummy hc hd hn =>
    rw [hc] at hk
    obtain rfl := hk
    exact ⟨l, h.read (by rw [hc]; rfl) rfl ⟨hd, hn⟩⟩
  | skip hc => exact h.skip hc
  | @load t hc =>
    have ht : t = s.tail ∧ t ≠ s.dummyPtr := by
      rcases hc with ⟨hc, hd⟩ | hc <;> rw [hc] at hk
      · exact ⟨hk, hd⟩
      · exact hk
    have hidle : s.consumer.enqueuing = .idle := by
      rcases hc with ⟨hc, -⟩ | hc <;> rw [hc] <;> rfl
    exact ⟨l, h.read hidle (enqueuing_afterLoad _ _) (knows_afterLoad ht)⟩
  | storeTail hc => exact h.storeTail hc
  | loadHead hc ht => exact ⟨l, h.loadHead hc ht⟩
  | notHead hc => exact ⟨l, h.read (by rw [hc]; rfl) rfl trivial⟩
  | enqueueDummy hc hs => exact h.enqueueDummy hc hs
  | reload hc hn =>
    rw [hc] at hk
    exact ⟨l, h.read (by rw [hc]; rfl) rfl ⟨hk, hn⟩⟩
  | giveUp hc => exact ⟨l, h.read (by rw [hc]; rfl) rfl trivial⟩

end MPSCQueueIntrusive

theorem inv_of_mpscQueueIntrusive {ι : Type v} [DecidableEq ι] {s : MPSCQueueIntrusive ι}
    (h : (mpscQueueIntrusive ι).Reachable s) : ∃ l, s.Inv l := by
  refine h.invariant (P := fun s => ∃ l, s.Inv l) ?_ ?_
  · rintro _ ⟨d, next, rfl⟩
    exact ⟨[d], MPSCQueueIntrusive.inv_initial d next⟩
  · rintro s a s' _ ⟨l, hl⟩ _ hs
    exact MPSCQueueIntrusive.inv_step hl (MPSCQueueIntrusive.step_cases hs)

/-- **A queue.** What `Dequeue` has returned is a prefix of the producers' nodes in the order of
their exchanges on `_head`, the dummy not among it. The nodes from `_tail` to `_head` are a chain,
broken only where a call of `Enqueue` is about to store a link, with the dummy in it at most once; the
others in it are those that have been exchanged and not returned. -/
theorem intrusive_fifo (ι : Type v) [DecidableEq ι] :
    ∀ s, (mpscQueueIntrusive ι).Reachable s →
      s.returned <+: s.exchanged ∧ s.dummyPtr ∉ s.returned ∧
      ∃ l, Chain s.next (MPSCQueueIntrusive.Pending s.enqueuing) l ∧
        l.head? = some s.tail ∧ l.getLast? = some s.head ∧ l.count s.dummyPtr ≤ 1 ∧
        s.exchanged = s.returned ++ l.filter (· ≠ s.dummyPtr) := by
  intro s hs
  obtain ⟨l, hl⟩ := inv_of_mpscQueueIntrusive hs
  refine ⟨?_, hl.dummy, l, hl.calls.chain, hl.calls.first, hl.calls.last, ?_, hl.calls.fifo⟩
  · rw [hl.calls.fifo]
    exact List.prefix_append _ _
  · exact List.nodup_iff_count_le_one.mp hl.calls.chain.nodup _

/-- A node is enqueued, returned by way of the dummy, and enqueued again. -/
theorem intrusive_fifo_recycled : ∃ s : MPSCQueueIntrusive ℕ,
    s.returned = [7] ∧ s.exchanged = [7, 7] ∧ s.returned <+: s.exchanged := by
  obtain ⟨s, hs, hr, he⟩ : ∃ s, (mpscQueueIntrusive ℕ).run (.initial ℕ 0 fun _ => none)
      [.enqueue 0 7, .producer 0, .producer 0, .producer 0, .consumer, .consumer, .consumer,
        .consumer, .consumer, .consumer, .consumer, .consumer, .consumer, .consumer, .enqueue 1 7,
        .producer 1, .producer 1] = some s ∧
      s.returned = [7] ∧ s.exchanged = [7, 7] := ⟨_, rfl, rfl, rfl⟩
  exact ⟨s, hr, he, (intrusive_fifo ℕ s (Machine.Reachable.run (.init ⟨0, _, rfl⟩) hs)).1⟩

end SelfStudy.Threading
