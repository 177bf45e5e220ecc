import SelfStudy.Threading.LockedQueue

/-!
# The order of a locked queue with one consumer

Thread 0 takes items with `next`, with a checker or without, and may put back the last of them with
`readd`; the other threads call `add`. `added` is what `add` has stored, in that order, `held` what the
consumer has taken since its last `readd`, and `kept` what it has taken before and not put back.

What was added is always what is kept, then what is held, then what is in the queue (`order_kept`).
-/

namespace SelfStudy.Threading

open Lib

universe u

namespace LockedQueue

/-- A producer or the consumer makes a call, or a thread its next step. `readd k` puts back all but the
first `k` of the items held. -/
inductive ConsumerAction (T : Type u)
  | add (i : ℕ) (item : T)
  | next (checked : Bool)
  | readd (k : ℕ)
  | thread (i : ℕ) (ans : Answer)
  deriving DecidableEq, Repr

/-- The queue, and the ledger of its items. -/
structure OneConsumer (T : Type u) where
  q : LockedQueue T
  added : List T
  kept : List T
  held : List T

namespace OneConsumer

variable {T : Type u}

/-- An empty queue, a consumer and `n` producers. -/
def initial (T : Type u) (n : ℕ) : OneConsumer T := ⟨.initial (n + 1) [], [], [], []⟩

/-- The ledger after a statement. A `readd` makes what it does not put back the consumer's own. -/
def enter (s : OneConsumer T) : Pc T → Answer → OneConsumer T
  | .add item, .ok => { s with added := s.added ++ [item] }
  | .nextPop result, .ok => { s with held := s.held ++ [result] }
  | .readd items, .ok =>
    { s with kept := s.kept ++ s.held.take (s.held.length - items.length), held := [] }
  | _, _ => s

def step (s : OneConsumer T) : ConsumerAction T → Option (OneConsumer T)
  | .add i item => (s.q.step (.call (i + 1) (.add item))).map fun q => { s with q := q }
  | .next checked => (s.q.step (.call 0 (.next checked))).map fun q => { s with q := q }
  | .readd k => (s.q.step (.call 0 (.readd (s.held.drop k)))).map fun q => { s with q := q }
  | .thread i ans =>
    s.q.threads[i]?.bind fun pc => (s.q.step (.thread i ans)).map fun q => { s.enter pc ans with q := q }

/-- Any number of producers, and one consumer. -/
def machine : Machine (OneConsumer T) (ConsumerAction T) where
  init s := ∃ n, s = initial T n
  step := step

/-! ## The statements of each thread -/

/-- What thread `i` may be about to execute: only the consumer takes items and puts them back, and
what it has copied is still in front. -/
def Fits (queue held : List T) (i : ℕ) : Pc T → Prop
  | .idle | .unlock _ | .unwind | .ended _ => True
  | .lock (.add _) | .add _ => i ≠ 0
  | .lock (.next _) | .nextTest _ | .nextFront _ => i = 0
  | .process result | .nextPop result => i = 0 ∧ queue.head? = some result
  | .lock (.readd items) | .readd items => i = 0 ∧ items <:+ held
  | .lock .popFront | .lock .cancel | .lock .cancelled | .lock .empty => False
  | .popFront | .cancel | .cancelled | .empty => False

variable {s s' : OneConsumer T} {queue queue' held held' : List T} {i : ℕ} {pc pc' : Pc T}
  {ans : Answer} {q : LockedQueue T}

/-- A thread does not notice what happens outside its section, unless it is the consumer's ledger. -/
theorem Fits.frame (h : Fits queue held i pc) (hq : pc.inSection = true → queue' = queue)
    (hheld : i = 0 → held' = held) : Fits queue' held' i pc := by
  cases pc with
  | idle | unlock | unwind | ended => trivial
  | add | nextTest | nextFront => exact h
  | process result | nextPop result => exact ⟨h.1, hq rfl ▸ h.2⟩
  | readd items => exact ⟨h.1, hheld h.1 ▸ h.2⟩
  | popFront | cancel | cancelled | empty => exact h.elim
  | lock c =>
    cases c with
    | add | next => exact h
    | readd items => exact ⟨h.1, hheld h.1 ▸ h.2⟩
    | popFront | cancel | cancelled | empty => exact h.elim

/-- The items are all there, in the order in which they were added. -/
def InOrder (s : OneConsumer T) : Prop := s.kept ++ s.held ++ s.q.queue = s.added

/-- **What one statement does to the ledger.** -/
theorem inOrder_statement (h : s.InOrder) (hf : Fits s.q.queue s.held i pc)
    (hst : Statement s.q i pc ans q pc') :
    (s.enter pc ans).kept ++ (s.enter pc ans).held ++ q.queue = (s.enter pc ans).added ∧
      Fits q.queue (s.enter pc ans).held i pc' ∧ (i ≠ 0 → (s.enter pc ans).held = s.held) := by
  unfold InOrder at h
  cases hst with
  | @lock c hl =>
    refine ⟨h, ?_, fun _ => rfl⟩
    cases c <;> exact hf
  | pushed =>
    refine ⟨?_, trivial, fun _ => rfl⟩
    simp only [enter, setQueue_queue, ← h, List.append_assoc]
  | pushThrows => exact ⟨h, trivial, fun _ => rfl⟩
  | @inserted items =>
    obtain ⟨hi, pre, hpre⟩ := hf
    refine ⟨?_, trivial, fun hne => absurd hi hne⟩
    have htake : s.held.take (s.held.length - items.length) = pre := by
      rw [← hpre, List.length_append, Nat.add_sub_cancel]
      exact List.take_left
    simp only [enter, setQueue_queue, htake, List.append_nil]
    rw [← h, ← hpre]
    simp only [List.append_assoc]
  | insertThrows | nothing | copyThrows | rejected | checkThrows => exact ⟨h, trivial, fun _ => rfl⟩
  | something => exact ⟨h, hf, fun _ => rfl⟩
  | @copied checked result hq =>
    refine ⟨h, ?_, fun _ => rfl⟩
    cases checked <;> exact ⟨hf, hq⟩
  | accepted => exact ⟨h, hf, fun _ => rfl⟩
  | @popped result hne =>
    obtain ⟨hi, hhead⟩ := hf
    refine ⟨?_, trivial, fun hne => absurd hi hne⟩
    obtain ⟨ts, hts⟩ := List.head?_eq_some_iff.mp hhead
    simp only [enter, setQueue_queue]
    rw [← h, hts]
    simp
  | popFront | cancel | cancelled | empty => exact hf.elim
  | unlock | unwound => exact ⟨h, trivial, fun _ => rfl⟩

/-! ## The runs -/

/-- What holds in every state. -/
structure Inv (s : OneConsumer T) : Prop where
  owned : Owned s.q
  inOrder : s.InOrder
  fits : ∀ i pc, s.q.threads[i]? = some pc → Fits s.q.queue s.held i pc

/-- A call. -/
theorem Inv.call {c : Call T} (h : Inv s) (hs : s.q.step (.call i c) = some q)
    (hf : Fits s.q.queue s.held i (.lock c)) : Inv { s with q := q } := by
  have hstep := step_cases hs
  have ho := h.owned.step hstep
  cases hstep with
  | call hi hpc =>
    refine ⟨ho, h.inOrder, fun j x hj => ?_⟩
    rcases mem_of_getElem?_set hj with ⟨rfl, rfl⟩ | ⟨-, hj⟩
    · exact hf
    · exact h.fits j x hj

/-- A statement. -/
theorem Inv.thread (h : Inv s) (hi : s.q.threads[i]? = some pc)
    (hs : s.q.step (.thread i ans) = some q) : Inv { s.enter pc ans with q := q } := by
  have hstep := step_cases hs
  have ho := h.owned.step hstep
  cases hstep with
  | @thread i ans pc₁ q₁ pc' hi₁ hst =>
    obtain rfl : pc₁ = pc := Option.some.inj (hi₁.symm.trans hi)
    obtain ⟨hin, hfits, hheld⟩ := inOrder_statement h.inOrder (h.fits i _ hi) hst
    refine ⟨ho, hin, fun j x hj => ?_⟩
    have hj' : (s.q.threads.set i pc')[j]? = some x := by
      rw [← hst.threads_eq]
      exact hj
    rcases mem_of_getElem?_set hj' with ⟨rfl, rfl⟩ | ⟨hij, hj'⟩
    · exact hfits
    · refine (h.fits j x hj').frame (fun hx => ?_) fun hj0 => hheld fun hi0 => hij (hj0.trans hi0.symm)
      exact absurd (h.owned.alone hi hst.lockMove hj' hx) hij

theorem Inv.step {a : ConsumerAction T} (h : Inv s) (hs : s.step a = some s') : Inv s' := by
  cases a with
  | add i item =>
    obtain ⟨q, hq, rfl⟩ := Option.map_eq_some_iff.mp hs
    exact h.call hq (Nat.succ_ne_zero i)
  | next checked =>
    obtain ⟨q, hq, rfl⟩ := Option.map_eq_some_iff.mp hs
    exact h.call hq rfl
  | readd k =>
    obtain ⟨q, hq, rfl⟩ := Option.map_eq_some_iff.mp hs
    exact h.call hq ⟨rfl, List.drop_suffix k s.held⟩
  | thread i ans =>
    obtain ⟨pc, hi, hs⟩ := Option.bind_eq_some_iff.mp hs
    obtain ⟨q, hq, rfl⟩ := Option.map_eq_some_iff.mp hs
    exact h.thread hi hq

theorem inv_initial (n : ℕ) : Inv (initial T n) := by
  refine ⟨owned_initial _ _, rfl, fun i pc hi => ?_⟩
  rw [(List.mem_replicate.mp (List.mem_of_getElem? hi)).2]
  trivial

/-- **The order is kept.** With any number of producers, in every interleaving of their calls of `add`
with a consumer that takes items by `next`, checked or not, and puts back any of the last ones by
`readd`, whatever the checker answers and whichever statement throws: the items kept, those held and
those in the queue are the items added, in the order in which they were added. -/
theorem order_kept (h : machine.Reachable s) : s.kept ++ s.held ++ s.q.queue = s.added := by
  refine (h.invariant (P := Inv) ?_ fun s a s' _ h _ hs => h.step hs).inOrder
  rintro s ⟨n, rfl⟩
  exact inv_initial n

/-- Two items are added and taken, the second one with a checker, and it is put back. -/
def putBack : List (ConsumerAction ℕ) :=
  [.add 0 7, .thread 1 .ok, .thread 1 .ok, .thread 1 .ok, .add 0 8, .thread 1 .ok, .thread 1 .ok,
    .thread 1 .ok, .next false, .thread 0 .ok, .thread 0 .ok, .thread 0 .ok, .thread 0 .ok,
    .thread 0 .ok, .next true, .thread 0 .ok, .thread 0 .ok, .thread 0 .ok, .thread 0 .accepts,
    .thread 0 .ok, .thread 0 .ok, .readd 1, .thread 0 .ok, .thread 0 .ok]

theorem order_kept_putBack : ∃ s : OneConsumer ℕ, machine.run (initial ℕ 1) putBack = some s ∧
    s.kept = [7] ∧ s.held = [] ∧ s.q.queue = [8] ∧ s.kept ++ s.held ++ s.q.queue = s.added := by
  obtain ⟨s, hs, hkept, hheld, hqueue⟩ : ∃ s : OneConsumer ℕ,
      machine.run (initial ℕ 1) putBack = some s ∧ s.kept = [7] ∧ s.held = [] ∧ s.q.queue = [8] :=
    ⟨_, rfl, rfl, rfl, rfl⟩
  exact ⟨s, hs, hkept, hheld, hqueue, order_kept (.run (.init ⟨1, rfl⟩) hs)⟩

end OneConsumer

end LockedQueue

end SelfStudy.Threading
