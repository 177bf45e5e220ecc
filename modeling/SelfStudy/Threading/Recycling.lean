import SelfStudy.Threading.IntrusiveFifo
import Mathlib.Logic.Relation

/-!
# Nodes that leave the intrusive queue

The node that `Dequeue` returns was the first of the chain and is out of it. Nobody keeps it: the
calls of `Enqueue` still in flight have a node of the chain as their `prevHead`, and every link that
a step accesses belongs to a node in the queue. So the caller has the node for itself. It may delete
it, which here is to put anything into its link, or enqueue it again; `recycling` is the queue with
callers that do so.
-/

namespace SelfStudy.Threading

open Lib Intrusive

universe v

namespace Intrusive

/-- A step of the queue, or a caller that overwrites the link of a node of its own. -/
inductive Recycling (ι : Type v)
  | queue (a : Action ι)
  | overwrite (n : ℕ) (link : Option ℕ)

end Intrusive

namespace MPSCQueueIntrusive

variable {ι : Type v} {s s' : MPSCQueueIntrusive ι} {l : List ℕ}

/-- The node is with the callers. -/
def Outside (s : MPSCQueueIntrusive ι) (n : ℕ) : Prop := n ∉ s.inside ∧ n ≠ s.dummyPtr

instance (s : MPSCQueueIntrusive ι) (n : ℕ) : Decidable (s.Outside n) := by
  unfold Outside
  infer_instance

/-! ## The nodes in the queue -/

theorem Inv.not_mem (h : s.Inv l) {n : ℕ} (hn : s.Outside n) : n ∉ l :=
  fun hm => hn.1 (h.inside n hm hn.2)

/-- A node in the hand of a call of `Enqueue` is not with the callers. -/
theorem Inv.hand_inside (h : s.Inv l) {k : Option ι} {n : ℕ} (hk : (s.enqueuing k).hand = some n) :
    ¬ s.Outside n := by
  intro hn
  cases k with
  | some i => exact hn.1 (h.owned i n hk).1
  | none =>
    have hknows := h.consumer
    cases hc : s.consumer with
    | enqueueDummy t pc =>
      rw [hc] at hknows
      rw [enqueuing, hc] at hk
      exact hn.2 (hknows.2 n hk)
    | _ =>
      rw [enqueuing, hc] at hk
      cases hk

/-- What a caller does to the link of a node of its own does not touch the queue. -/
theorem Inv.overwrite (h : s.Inv l) {n : ℕ} (hn : s.Outside n) (v : Option ℕ) :
    (s.setNext n v).Inv l := by
  have hl : ∀ a ∈ l, (s.setNext n v).next a = s.next a := by
    intro a ha
    refine Function.update_of_ne ?_ _ _
    rintro rfl
    exact h.not_mem hn ha
  have htail := hl s.tail h.calls.tail_mem
  refine ⟨⟨h.calls.chain.frame hl, h.calls.first, h.calls.last, h.calls.fifo, h.calls.hand,
    fun k m hk => ?_, h.calls.distinct⟩, h.inside, h.owned, ?_, h.dummy⟩
  · have hm : m ≠ n := by
      rintro rfl
      have hhand : (s.enqueuing k).hand = some m := by
        show EnqueuePc.hand ((s.setNext m v).enqueuing k) = some m
        rw [hk]
        rfl
      exact h.hand_inside hhand hn
    rw [setNext_next, Function.update_of_ne hm]
    exact h.calls.cleared k m hk
  · have hk := h.consumer
    show (s.setNext n v).ConsumerKnows s.consumer
    cases hc : s.consumer with
    | skip m =>
      rw [hc] at hk
      exact ⟨hk.1, htail.trans hk.2⟩
    | storeTail t m =>
      rw [hc] at hk
      obtain ⟨⟨rfl, hd⟩, hm⟩ := hk
      exact ⟨⟨rfl, hd⟩, htail.trans hm⟩
    | _ =>
      rw [hc] at hk
      exact hk

/-! ## The links that a step accesses -/

/-- The link that the next step of a call of `Enqueue` stores. -/
def enqueueAccess : EnqueuePc → List ℕ
  | .clear n => [n]
  | .link _ p => [p]
  | _ => []

/-- The link that the next step of `Dequeue` loads or stores. -/
def dequeueAccess : DequeuePc → List ℕ
  | .loadNext t | .loadAgain t | .reload t => [t]
  | .enqueueDummy _ pc => enqueueAccess pc
  | _ => []

def access (s : MPSCQueueIntrusive ι) : Action ι → List ℕ
  | .enqueue _ _ => []
  | .producer i => enqueueAccess (s.producer i)
  | .consumer => dequeueAccess s.consumer

theorem Inv.enqueueAccess (h : s.Inv l) (k : Option ι) {n : ℕ}
    (hn : n ∈ enqueueAccess (s.enqueuing k)) : ¬ s.Outside n := by
  cases hk : s.enqueuing k with
  | idle => rw [hk] at hn; cases hn
  | clear m =>
    rw [hk] at hn
    obtain rfl := List.mem_singleton.mp hn
    exact h.hand_inside (k := k) (by rw [hk]; rfl)
  | exchange m => rw [hk] at hn; cases hn
  | link m p =>
    rw [hk] at hn
    obtain rfl := List.mem_singleton.mp hn
    have hmem := (mem_of_adjacent (h.calls.chain.pending k n m hk).1).1
    exact fun ho => h.not_mem ho hmem

/-- Every link that a step accesses belongs to a node in the queue. -/
theorem Inv.access (h : s.Inv l) (a : Action ι) {n : ℕ} (hn : n ∈ s.access a) :
    ¬ s.Outside n := by
  have htail : ¬ s.Outside s.tail := fun ho => h.not_mem ho h.calls.tail_mem
  have hk := h.consumer
  cases a with
  | enqueue i m => cases hn
  | producer i => exact h.enqueueAccess (some i) hn
  | consumer =>
    rw [MPSCQueueIntrusive.access] at hn
    cases hc : s.consumer with
    | enqueueDummy t pc =>
      have hpc : s.enqueuing none = pc := by rw [enqueuing, hc]; rfl
      rw [hc] at hn
      exact h.enqueueAccess none (hpc.symm ▸ hn)
    | loadNext t =>
      rw [hc] at hn hk
      exact List.mem_singleton.mp hn ▸ hk ▸ htail
    | loadAgain t =>
      rw [hc] at hn hk
      exact List.mem_singleton.mp hn ▸ hk.1 ▸ htail
    | reload t =>
      rw [hc] at hn hk
      exact List.mem_singleton.mp hn ▸ hk.1 ▸ htail
    | _ => rw [hc] at hn; cases hn

theorem setNext_comm {m n : ℕ} (h : m ≠ n) (v w : Option ℕ) :
    (s.setNext m v).setNext n w = (s.setNext n w).setNext m v := by
  unfold setNext
  rw [Function.update_comm h]

theorem enqueueStep_setNext {pc : EnqueuePc} {m : ℕ} (h : m ∉ enqueueAccess pc) (v : Option ℕ) :
    (s.setNext m v).enqueueStep pc = (s.enqueueStep pc).map fun q => (q.1.setNext m v, q.2) := by
  cases pc with
  | idle => rfl
  | clear n =>
    have hne : m ≠ n := fun e => h (List.mem_singleton.mpr e)
    show some (_, _) = some (_, _)
    rw [setNext_comm hne]
  | exchange n => rfl
  | link n p =>
    have hne : m ≠ p := fun e => h (List.mem_singleton.mpr e)
    show some (_, _) = some (_, _)
    rw [setNext_comm hne]

theorem consumerStep_setNext {pc : DequeuePc} {m : ℕ} (h : m ∉ dequeueAccess pc) (v : Option ℕ) :
    (s.setNext m v).consumerStep pc = (s.consumerStep pc).map fun t => t.setNext m v := by
  cases pc with
  | idle => rfl
  | skip n => rfl
  | storeTail t n => rfl
  | loadNext t =>
    have hne : t ≠ m := fun e => h (List.mem_singleton.mpr e.symm)
    have hnext : (s.setNext m v).next t = s.next t := Function.update_of_ne hne _ _
    simp only [consumerStep, hnext, setNext_dummyPtr]
    split_ifs
    · cases s.next t <;> rfl
    · rfl
  | loadAgain t =>
    have hne : t ≠ m := fun e => h (List.mem_singleton.mpr e.symm)
    have hnext : (s.setNext m v).next t = s.next t := Function.update_of_ne hne _ _
    simp only [consumerStep, hnext]
    rfl
  | loadHead t =>
    simp only [consumerStep, setNext_head, setNext_dummyPtr]
    split_ifs <;> rfl
  | enqueueDummy t pc =>
    show ((s.setNext m v).enqueueStep pc).map _ = ((s.enqueueStep pc).map _).map _
    rw [enqueueStep_setNext h, Option.map_map, Option.map_map]
    rfl
  | reload t =>
    have hne : t ≠ m := fun e => h (List.mem_singleton.mpr e.symm)
    have hnext : (s.setNext m v).next t = s.next t := Function.update_of_ne hne _ _
    simp only [consumerStep, hnext]
    cases s.next t <;> rfl

/-! ## Who has a node -/

/-- Links lead from the chain to nothing else. -/
theorem Inv.linked_mem (h : s.Inv l) {n : ℕ}
    (hn : Relation.ReflTransGen (fun a b => s.next a = some b) s.tail n) : n ∈ l := by
  induction hn with
  | refl => exact h.calls.tail_mem
  | tail _ hab ih => exact (mem_of_adjacent (h.calls.chain.pair_of_next ih hab)).2

/-- `Dequeue` has just returned `n`. -/
theorem Inv.outside_returned (h : s.Inv l) (hin : s.inside.Nodup) {n : ℕ}
    (hs : s.consumerStep s.consumer = some s') (hr : s'.returned = s.returned ++ [n]) :
    s'.Outside n := by
  rcases consumerStep_keeps hs with ⟨t, m, hc, rfl⟩ | hkeep
  · obtain rfl : t = n := by simpa using hr
    have hk := h.consumer
    rw [hc] at hk
    exact ⟨hin.not_mem_erase, hk.1.2⟩
  · rw [hkeep.returned] at hr
    simp at hr

/-! ## Callers that recycle nodes -/

variable [DecidableEq ι]

/-- A step that does not access the link of `m` neither depends on it nor changes it. -/
theorem step_setNext {a : Action ι} {m : ℕ} (h : m ∉ s.access a) (v : Option ℕ) :
    (s.setNext m v).step a = (s.step a).map fun t => t.setNext m v := by
  cases a with
  | enqueue i n =>
    unfold step
    rw [apply_ite (Option.map _)]
    rfl
  | producer i =>
    show ((s.setNext m v).enqueueStep (s.producer i)).map _ =
      ((s.enqueueStep (s.producer i)).map _).map _
    rw [enqueueStep_setNext h, Option.map_map, Option.map_map]
    rfl
  | consumer => exact consumerStep_setNext h v

/-- One step of the queue or of a caller on a node of its own. -/
def recyclingStep (s : MPSCQueueIntrusive ι) : Recycling ι → Option (MPSCQueueIntrusive ι)
  | .queue a => s.step a
  | .overwrite n v => if s.Outside n then some (s.setNext n v) else none

end MPSCQueueIntrusive

/-- The queue whose callers do as they please with the nodes that are not in it. -/
def recycling (ι : Type v) [DecidableEq ι] : Machine (MPSCQueueIntrusive ι) (Recycling ι) where
  init s := ∃ d next, s = .initial ι d next
  step := MPSCQueueIntrusive.recyclingStep

namespace MPSCQueueIntrusive

variable {ι : Type v} [DecidableEq ι] {s s' : MPSCQueueIntrusive ι} {l : List ℕ}

/-- A node stays with the callers until one of them enqueues it. -/
theorem Outside.step {n : ℕ} (h : s.Outside n) {r : Recycling ι}
    (hs : s.recyclingStep r = some s') (hr : ∀ i, r ≠ .queue (.enqueue i n)) : s'.Outside n := by
  cases r with
  | overwrite m v =>
    simp only [recyclingStep, Option.ite_none_right_eq_some, Option.some.injEq] at hs
    obtain ⟨-, rfl⟩ := hs
    exact h
  | queue a =>
    cases a with
    | enqueue i m =>
      simp only [recyclingStep, MPSCQueueIntrusive.step, Option.ite_none_right_eq_some,
        Option.some.injEq] at hs
      obtain ⟨-, rfl⟩ := hs
      refine ⟨fun hm => ?_, h.2⟩
      rcases List.mem_cons.mp hm with rfl | hm
      · exact hr i rfl
      · exact h.1 hm
    | producer i =>
      obtain ⟨⟨t, pc⟩, hq, rfl⟩ := Option.map_eq_some_iff.mp hs
      have hk := (enqueueStep_keeps hq).1
      exact ⟨fun hm => h.1 (hk.inside ▸ hm), fun e => h.2 (e.trans hk.dummyPtr)⟩
    | consumer =>
      rcases consumerStep_keeps hs with ⟨t, m, -, rfl⟩ | hk
      · exact ⟨fun hm => h.1 (List.mem_of_mem_erase hm), h.2⟩
      · exact ⟨fun hm => h.1 (hk.inside ▸ hm), fun e => h.2 (e.trans hk.dummyPtr)⟩

theorem Outside.run {n : ℕ} {rs : List (Recycling ι)} (h : s.Outside n)
    (hs : (recycling ι).run s rs = some s') (hr : ∀ i, .queue (.enqueue i n) ∉ rs) :
    s'.Outside n := by
  induction rs generalizing s with
  | nil => exact Option.some.inj hs ▸ h
  | cons r rs ih =>
    obtain ⟨t, ht, hs⟩ := Option.bind_eq_some_iff.mp hs
    have hnot : ∀ i, r ≠ .queue (.enqueue i n) := fun i e => hr i (e ▸ List.mem_cons_self)
    exact ih (h.step ht hnot) hs fun i hi => hr i (List.mem_cons_of_mem _ hi)

/-- No node is handed in twice. -/
theorem nodup_inside_step (h : s.inside.Nodup) {r : Recycling ι}
    (hs : s.recyclingStep r = some s') : s'.inside.Nodup := by
  cases r with
  | overwrite m v =>
    simp only [recyclingStep, Option.ite_none_right_eq_some, Option.some.injEq] at hs
    obtain ⟨-, rfl⟩ := hs
    exact h
  | queue a =>
    cases a with
    | enqueue i m =>
      simp only [recyclingStep, MPSCQueueIntrusive.step, Option.ite_none_right_eq_some,
        Option.some.injEq] at hs
      obtain ⟨⟨-, hm, -⟩, rfl⟩ := hs
      exact List.nodup_cons.mpr ⟨hm, h⟩
    | producer i =>
      obtain ⟨⟨t, pc⟩, hq, rfl⟩ := Option.map_eq_some_iff.mp hs
      exact (enqueueStep_keeps hq).1.inside ▸ h
    | consumer =>
      rcases consumerStep_keeps hs with ⟨t, m, -, rfl⟩ | hk
      · exact h.erase t
      · exact hk.inside ▸ h

theorem recyclingStep_inv (h : s.Inv l) {r : Recycling ι} (hs : s.recyclingStep r = some s') :
    ∃ l', s'.Inv l' := by
  cases r with
  | queue a => exact inv_step h (step_cases hs)
  | overwrite n v =>
    simp only [recyclingStep, Option.ite_none_right_eq_some, Option.some.injEq] at hs
    obtain ⟨hn, rfl⟩ := hs
    exact ⟨l, h.overwrite hn v⟩

end MPSCQueueIntrusive

theorem inv_of_recycling {ι : Type v} [DecidableEq ι] {s : MPSCQueueIntrusive ι}
    (h : (recycling ι).Reachable s) : (∃ l, s.Inv l) ∧ s.inside.Nodup := by
  refine h.invariant (P := fun s => (∃ l, s.Inv l) ∧ s.inside.Nodup) ?_ ?_
  · rintro _ ⟨d, next, rfl⟩
    exact ⟨⟨[d], MPSCQueueIntrusive.inv_initial d next⟩, List.nodup_nil⟩
  · rintro s r s' _ ⟨⟨l, hl⟩, hin⟩ _ hs
    exact ⟨MPSCQueueIntrusive.recyclingStep_inv hl hs,
      MPSCQueueIntrusive.nodup_inside_step hin hs⟩

/-- **A returned node is free.** The nodes from `_tail` to `_head` are a broken chain in every run in
which nodes are recycled. From the step in which `Dequeue` returns `n` until a caller enqueues `n`
again, `n` is neither `_head` nor `_tail`, no links lead from `_tail` to it, it is the `prevHead` of
no call of `Enqueue`, any caller may enqueue it, and each step of the queue is the same whatever
stands in the link of `n` and leaves it there. -/
theorem intrusive_returned (ι : Type v) [DecidableEq ι] :
    ∀ s, (recycling ι).Reachable s →
      (∃ l, Chain s.next (MPSCQueueIntrusive.Pending s.enqueuing) l ∧
        l.head? = some s.tail ∧ l.getLast? = some s.head ∧ l.count s.dummyPtr ≤ 1 ∧
        s.exchanged = s.returned ++ l.filter (· ≠ s.dummyPtr)) ∧
      ∀ n t, s.step .consumer = some t → t.returned = s.returned ++ [n] →
        ∀ rs u, (recycling ι).run t rs = some u → (∀ i, .queue (.enqueue i n) ∉ rs) →
          n ≠ u.head ∧ n ≠ u.tail ∧
          ¬ Relation.ReflTransGen (fun a b => u.next a = some b) u.tail n ∧
          (∀ k m, u.enqueuing k ≠ .link m n) ∧
          (∀ i, u.producer i = .idle → (u.step (.enqueue i n)).isSome) ∧
          ∀ a v, (u.setNext n v).step a = (u.step a).map fun w => w.setNext n v := by
  intro s hs
  obtain ⟨⟨l, hl⟩, hin⟩ := inv_of_recycling hs
  refine ⟨⟨l, hl.calls.chain, hl.calls.first, hl.calls.last,
    List.nodup_iff_count_le_one.mp hl.calls.chain.nodup _, hl.calls.fifo⟩, ?_⟩
  intro n t ht hret rs u hu hnot
  have hout : u.Outside n := (hl.outside_returned hin ht hret).run hu hnot
  have hreach : (recycling ι).Reachable u := Machine.Reachable.run
    (Machine.ReachableIf.step (a := .queue .consumer) hs trivial ht) hu
  obtain ⟨⟨m, hm⟩, -⟩ := inv_of_recycling hreach
  have hn : n ∉ m := hm.not_mem hout
  refine ⟨?_, ?_, fun hlink => hn (hm.linked_mem hlink), fun k b hk => ?_, fun i hi => ?_,
    fun a v => ?_⟩
  · rintro rfl
    exact hn (List.mem_of_getLast? hm.calls.last)
  · rintro rfl
    exact hn hm.calls.tail_mem
  · exact hn (mem_of_adjacent (hm.calls.chain.pending k n b hk).1).1
  · show (if u.producer i = .idle ∧ n ∉ u.inside ∧ n ≠ u.dummyPtr then some _ else none).isSome
    rw [if_pos ⟨hi, hout.1, hout.2⟩]
    rfl
  · exact MPSCQueueIntrusive.step_setNext (fun ha => hm.access a ha hout) v

/-- Node 7 is returned by way of the dummy and its link is overwritten. -/
theorem intrusive_returned_seven : ∃ u : MPSCQueueIntrusive ℕ,
    u.returned = [7] ∧ u.next 7 = some 9 ∧ 7 ≠ u.head ∧ (u.step (.enqueue 1 7)).isSome := by
  obtain ⟨s, hs, t, ht, hret, u, hu, hnext, hr, hi⟩ : ∃ s,
      (recycling ℕ).run (.initial ℕ 0 fun _ => none)
        (([.enqueue 0 7, .producer 0, .producer 0, .producer 0, .consumer, .consumer, .consumer,
          .consumer, .consumer, .consumer, .consumer, .consumer, .consumer].map .queue)) = some s ∧
      ∃ t, s.step .consumer = some t ∧ t.returned = s.returned ++ [7] ∧
      ∃ u, (recycling ℕ).run t [.overwrite 7 (some 9)] = some u ∧ u.next 7 = some 9 ∧
        u.returned = [7] ∧ u.producer 1 = .idle :=
    ⟨_, rfl, _, rfl, rfl, _, rfl, rfl, rfl, rfl⟩
  have h := (intrusive_returned ℕ s (Machine.Reachable.run (.init ⟨0, _, rfl⟩) hs)).2 7 t ht hret
    [.overwrite 7 (some 9)] u hu (by simp)
  exact ⟨u, hr, hnext, h.1, h.2.2.2.2.1 1 hi⟩

end SelfStudy.Threading
