import SelfStudy.Lib.Count
import SelfStudy.Threading.ProducerConsumerFifo

/-!
# Wakeups of the producer-consumer queue

While somebody sleeps in `WaitAndPop`, the elements are at most as many as the threads that have been
notified and still have to look (`Awake`). A thread that has looked may leave one element more behind
until it has taken one, and `Push` one more until it has notified: this is the slack of the holder of
the lock.
-/

namespace SelfStudy.Threading

open Lib ProducerConsumer

universe u

variable {T : Type u}

namespace ProducerConsumer.Pc

/-- How many elements may be unaccounted for while the holder is at the statement. -/
def slack : Pc T → ℕ
  | .notifyOne _ | .waitWhile | .waitTest | .waitFront | .waitPop _ => 1
  | _ => 0

end ProducerConsumer.Pc

namespace ProducerConsumerQueue

variable {isPointer : Bool} {n : ℕ} {s s' : ProducerConsumerQueue T}

/-- The threads that sleep and were not notified. -/
def sleepers (s : ProducerConsumerQueue T) : ℕ := s.threads.countP Pc.isAsleep

/-- The threads notified inside `WaitAndPop` that have not taken the lock again. -/
def notified (s : ProducerConsumerQueue T) : ℕ := s.threads.countP Pc.isNotified

/-- While there is a sleeper, `_shutdown` is not set (or `notify_all` is still to come), and the
elements are covered by the notified threads. -/
def Awake (s : ProducerConsumerQueue T) : Prop :=
  0 < s.sleepers → (s.guarded.shutdown = false ∨ s.holder = some .notifyAll) ∧
    s.guarded.queue.length ≤ s.notified + (s.holder.getD .idle).slack

theorem sleepers_set {i : ℕ} {pc : Pc T} (hi : s.threads[i]? = some pc) (x : Pc T) :
    (s.setThread i x).sleepers + (if pc.isAsleep then 1 else 0) =
      s.sleepers + if x.isAsleep then 1 else 0 :=
  countP_set_add _ hi x

theorem notified_set {i : ℕ} {pc : Pc T} (hi : s.threads[i]? = some pc) (x : Pc T) :
    (s.setThread i x).notified + (if pc.isNotified then 1 else 0) =
      s.notified + if x.isNotified then 1 else 0 :=
  countP_set_add _ hi x

theorem isAsleep_of_inSection {pc : Pc T} (h : pc.inSection = true) : pc.isAsleep = false := by
  cases pc <;> first | rfl | cases h

theorem isNotified_of_inSection {pc : Pc T} (h : pc.inSection = true) : pc.isNotified = false := by
  cases pc <;> first | rfl | cases h

theorem sleepers_notifyAll (s : ProducerConsumerQueue T) :
    (s.threads.map Pc.notify).countP Pc.isAsleep = 0 := by
  rw [List.countP_eq_zero]
  intro pc hpc
  obtain ⟨x, -, rfl⟩ := List.mem_map.mp hpc
  cases x <;> exact Bool.false_ne_true

/-- A statement inside a section keeps the account. -/
theorem covered_statement {g g' : Guarded T} {pc pc' : Pc T} {k : ℕ}
    (hg : g.Statement isPointer pc g' pc') (hsd : g.shutdown = false)
    (hle : g.queue.length ≤ k + pc.slack) :
    (g'.shutdown = false ∨ pc' = .notifyAll) ∧ g'.queue.length ≤ k + pc'.slack := by
  cases hg with
  | push v =>
    refine ⟨.inl hsd, ?_⟩
    rw [List.length_append]
    exact Nat.add_le_add_right hle 1
  | popPop v =>
    refine ⟨.inl hsd, ?_⟩
    exact (List.length_tail (l := g.queue) ▸ Nat.sub_le _ _).trans hle
  | waitBlocks hq => exact ⟨.inl hsd, hq ▸ Nat.zero_le _⟩
  | waitFails hc =>
    have hq : g.queue = [] := hc.resolve_right (by simp [hsd])
    exact ⟨.inl hsd, hq ▸ Nat.zero_le _⟩
  | waitPop v hq =>
    refine ⟨.inl hsd, ?_⟩
    have hpos := List.length_pos_iff.mpr hq
    simp only [Pc.slack, List.length_tail] at hle ⊢
    omega
  | cancelPop v =>
    refine ⟨.inl hsd, ?_⟩
    exact (List.length_tail (l := g.queue) ▸ Nat.sub_le _ _).trans hle
  | cancelStore => exact ⟨.inr rfl, hle⟩
  | _ => exact ⟨.inl hsd, hle⟩

theorem Awake.statement {i : ℕ} {pc pc' : Pc T} {g : Guarded T} (h : s.Awake) (hx : s.Exclusive)
    (hi : s.threads[i]? = some pc) (hg : s.guarded.Statement isPointer pc g pc') :
    ((s.setGuarded g).setThread i pc').Awake := by
  obtain ⟨hpc, hpc'⟩ := inSection_statement hg
  have hsl := sleepers_set (s := s.setGuarded g) hi pc'
  have hno := notified_set (s := s.setGuarded g) hi pc'
  have hold : s.holder = some pc := hx.holder_eq hi hpc
  have hnew : ((s.setGuarded g).setThread i pc').holder = some pc' := hx.holder_set_inside hi hpc _
  simp only [isAsleep_of_inSection hpc, isAsleep_of_inSection hpc', if_false, Nat.add_zero,
    Bool.false_eq_true] at hsl
  simp only [isNotified_of_inSection hpc, isNotified_of_inSection hpc', if_false, Nat.add_zero,
    Bool.false_eq_true] at hno
  intro hpos
  obtain ⟨hsd, hle⟩ := h (Nat.lt_of_lt_of_eq hpos hsl)
  rw [hold] at hsd hle
  have hsd : s.guarded.shutdown = false := by
    refine hsd.resolve_right fun e => ?_
    cases Option.some.inj e
    cases hg
  rw [hno, hnew]
  exact (covered_statement hg hsd hle).imp_left (Or.imp_right (congrArg some))

/-- A step that leaves the data alone, wakes no more than it has to and falls asleep nowhere. -/
theorem Awake.of_le (h : s.Awake) (hq : s'.guarded.queue = s.guarded.queue)
    (hsd : s'.guarded.shutdown = s.guarded.shutdown) (hsl : s'.sleepers ≤ s.sleepers)
    (hle : s.notified + (s.holder.getD .idle).slack ≤ s'.notified + (s'.holder.getD .idle).slack)
    (hall : s.holder = some .notifyAll → s'.holder = some .notifyAll) : s'.Awake := by
  intro hpos
  obtain ⟨hsd', hle'⟩ := h (Nat.lt_of_lt_of_le hpos hsl)
  rw [hq, hsd]
  exact ⟨hsd'.imp_right hall, hle'.trans hle⟩

theorem awake_of_sleepers (h : s.sleepers = 0) : s.Awake :=
  fun hpos => absurd hpos (by omega)

theorem Awake.step {a : Action T} (h : s.Awake) (hi : s.Inv isPointer) (hs : Step isPointer s a s') :
    s'.Awake := by
  have hx := hi.exclusive
  cases hs with
  | @call i c hpc =>
    have hsl : (s.setThread i (.lock c)).sleepers = s.sleepers := sleepers_set hpc (.lock c)
    have hno : (s.setThread i (.lock c)).notified = s.notified := notified_set hpc (.lock c)
    have hnew : (s.setThread i (.lock c)).holder = s.holder := hx.holder_set_outside hpc rfl _
    exact h.of_le rfl rfl (by omega) (by rw [hno, hnew]) (by rw [hnew]; exact id)
  | @lock i w c hpc hl =>
    have hsl := sleepers_set (s := s.setLock (some i)) hpc c.enter
    have hno := notified_set (s := s.setLock (some i)) hpc c.enter
    simp only [isAsleep_of_inSection (inSection_enter c)] at hsl
    simp only [isNotified_of_inSection (inSection_enter c)] at hno
    have hold : s.holder = none := by rw [holder, hl]; rfl
    refine h.of_le rfl rfl (Nat.le_of_eq hsl) ?_ (by rw [hold]; intro h; cases h)
    rw [hold]
    exact (Nat.le_of_eq hno.symm).trans (Nat.le_add_right _ _)
  | @relock i w pc hpc hk hl =>
    have hsl := sleepers_set (s := s.setLock (some i)) hpc .waitWhile
    have hno := notified_set (s := s.setLock (some i)) hpc .waitWhile
    have hold : s.holder = none := by rw [holder, hl]; rfl
    have hnew : ((s.setLock (some i)).setThread i .waitWhile).holder = some .waitWhile :=
      Monitor.holder_acquire hpc _
    have hsame : (s.setLock (some i)).sleepers = s.sleepers := rfl
    have hsame' : (s.setLock (some i)).notified = s.notified := rfl
    refine h.of_le rfl rfl ?_ ?_ (by rw [hold]; intro h; cases h)
    · rcases hk with rfl | rfl <;> simp [Pc.isAsleep] at hsl <;> omega
    · rw [hold, hnew]
      rcases hk with rfl | rfl <;> simp [Pc.isNotified] at hno <;> simp [Pc.slack] <;> omega
  | @wait i w hpc =>
    intro _
    obtain ⟨hq, hsd⟩ : s.guarded.queue = [] ∧ s.guarded.shutdown = false := hi.ok hpc rfl
    refine ⟨.inl hsd, ?_⟩
    show s.guarded.queue.length ≤ _
    rw [hq]
    exact Nat.zero_le _
  | @notify i j v hpc hj =>
    have hsl := sleepers_set hj .notified
    have hno := notified_set hj .notified
    have hsl' := sleepers_set (getElem?_setThread_ne hpc hj .notified) (.unlock (.push v))
    have hno' := notified_set (getElem?_setThread_ne hpc hj .notified) (.unlock (.push v))
    have hold : s.holder = some (.notifyOne v) := hx.holder_eq hpc rfl
    have hnew := holder_notify hx hpc hj (.unlock (.push v))
    simp only [Pc.isAsleep, Pc.isNotified, if_true, if_false, Bool.false_eq_true] at hsl hno hsl' hno'
    refine h.of_le rfl rfl (by omega) ?_ (by rw [hold]; intro h; cases h)
    rw [hold, hnew]
    simp only [Option.getD_some, Pc.slack]
    omega
  | @notifyNone i v hpc hn =>
    have hsl : (s.setThread i (.unlock (.push v))).sleepers = s.sleepers := sleepers_set hpc _
    exact awake_of_sleepers (hsl.trans hn)
  | @notifyAll i w hpc =>
    have hi' : ({ s with threads := s.threads.map Pc.notify } :
        ProducerConsumerQueue T).threads[i]? = some .notifyAll := by
      rw [List.getElem?_map, hpc]
      rfl
    have hsl := sleepers_set hi' (.unlock .cancel)
    exact awake_of_sleepers (hsl.trans (sleepers_notifyAll s))
  | @unlock i w r hpc =>
    have hsl := sleepers_set (s := s.setLock none) hpc .idle
    have hno := notified_set (s := s.setLock none) hpc .idle
    have hold : s.holder = some (.unlock r) := hx.holder_eq hpc rfl
    refine h.of_le rfl rfl (Nat.le_of_eq hsl) ?_ (by rw [hold]; intro h; cases h)
    rw [hold]
    exact (Nat.le_of_eq hno.symm).trans (Nat.le_add_right _ _)
  | statement hpc hg => exact h.statement hx hpc hg
  | @spurious i hpc =>
    have hsl := sleepers_set hpc .woken
    have hno : (s.setThread i .woken).notified = s.notified := notified_set hpc .woken
    have hnew : (s.setThread i .woken).holder = s.holder := hx.holder_set_outside hpc rfl _
    simp only [Pc.isAsleep, if_true, if_false, Bool.false_eq_true] at hsl
    exact h.of_le rfl rfl (by omega) (by rw [hno, hnew]) (by rw [hnew]; exact id)

theorem awake_of_reachable (h : (producerConsumerQueue T isPointer n).Reachable s) : s.Awake := by
  refine h.invariant (P := Awake) ?_ ?_
  · rintro _ rfl
    refine awake_of_sleepers ?_
    rw [sleepers, List.countP_eq_zero]
    intro pc hpc
    rw [List.eq_of_mem_replicate hpc]
    exact Bool.false_ne_true
  · intro s a s' hs h _ hs'
    exact h.step (inv_of_reachable hs) (step_cases hs')

end ProducerConsumerQueue

/-- **No lost wakeup.** With the lock free and a consumer asleep that was not notified, `_shutdown` is
not set and the elements are at most as many as the consumers that were notified and have not taken
the lock again. -/
theorem no_lost_wakeup (T : Type u) (isPointer : Bool) (n : ℕ) :
    ∀ s : ProducerConsumerQueue T, (producerConsumerQueue T isPointer n).Reachable s →
      s.queueLock = none → .asleep ∈ s.threads →
        s.guarded.shutdown = false ∧ s.guarded.queue.length ≤ s.notified := by
  intro s hs hl hmem
  have hold : s.holder = none := by rw [ProducerConsumerQueue.holder, hl]; rfl
  have hpos : 0 < s.sleepers := List.countP_pos_iff.mpr ⟨_, hmem, rfl⟩
  obtain ⟨hsd, hle⟩ := ProducerConsumerQueue.awake_of_reachable hs hpos
  rw [hold] at hsd hle
  refine ⟨hsd.resolve_right ?_, hle⟩
  intro h
  cases h

/-- Two consumers sleep, one of them is notified by a push. -/
theorem no_lost_wakeup_two : ∃ s : ProducerConsumerQueue ℕ,
    s.notified = 1 ∧ s.guarded.shutdown = false ∧ s.guarded.queue.length ≤ 1 := by
  obtain ⟨s, hs, hl, hmem, hn⟩ : ∃ s, (producerConsumerQueue ℕ false 3).run (.initial ℕ 3)
      ([.call 0 .waitAndPop, .call 1 .waitAndPop, .call 2 (.push 7)] ++
        List.replicate 3 (.thread 0 none) ++ List.replicate 3 (.thread 1 none) ++
        [.thread 2 none, .thread 2 none, .thread 2 (some 1), .thread 2 none]) = some s ∧
      s.queueLock = none ∧ .asleep ∈ s.threads ∧ s.notified = 1 :=
    ⟨_, rfl, rfl, List.mem_cons_self, rfl⟩
  have h := no_lost_wakeup ℕ false 3 s (Machine.Reachable.run (.init rfl) hs) hl hmem
  exact ⟨s, hn, h.1, hn ▸ h.2⟩

end SelfStudy.Threading
