import SelfStudy.Iocp.Stages
import SelfStudy.Lib.Holding

/-!
# The contexts of the restart loop

A context that is allocated is in the list, or some thread has it outside the list: the worker that
made it and has not added it yet, or `main` as its listening context. `Filed` says so, and that each
context made has been freed once or is one of these. `CtxtListFree` then frees all that are left.

If the heap gives no I/O context, `CtxtAllocate` returns a block that it has freed, and the thread
that asked for it does not survive its next look at it (`Stuck`): no finally block ends after that.
-/

namespace SelfStudy.Iocp

open Lib Globals

/-! ## The contexts in the heap -/

/-- Who has the context with that serial: nobody any more, or the heap at an address. -/
def Globals.OwnsContext (g : Globals) (freed : List ℕ) : Option Addr → ℕ → Prop
  | none, c => c ∈ freed
  | some a, c => g.live a = true ∧ (g.ctxt a).serial = c

/-- The same contexts are allocated, and linked in the same way. -/
structure Globals.SameHeap (g g' : Globals) : Prop where
  live : g'.live = g.live
  serial : g'.serial = g.serial
  serialAt : ∀ b, (g'.ctxt b).serial = (g.ctxt b).serial
  pCtxtBack : ∀ b, (g'.ctxt b).pCtxtBack = (g.ctxt b).pCtxtBack
  pCtxtForward : ∀ b, (g'.ctxt b).pCtxtForward = (g.ctxt b).pCtxtForward
  length : ∀ b, (g'.ctxt b).pIOContext.length = (g.ctxt b).pIOContext.length
  pCtxtList : g'.pCtxtList = g.pCtxtList

/-- The contexts of the heap, those of `listed` in the list and the others with a thread. -/
structure Filed (g : Globals) (listed : List Addr) (freed : List ℕ) (loose : Addr → Prop) : Prop where
  nodup : freed.Nodup
  contexts : Holding g.serial (g.OwnsContext freed)
  live_iff : ∀ a, g.live a = true ↔ a ∈ listed ∨ loose a
  apart : ∀ a ∈ listed, ¬ loose a
  io : ∀ a, g.live a = true → ∃ io, (g.ctxt a).pIOContext = [io]
  remaining : Remaining g listed

section Heap

variable {g g' g'' : Globals} {listed l₁ l₂ : List Addr} {freed : List ℕ} {loose loose' : Addr → Prop}
  {a c : Addr} {n : ℕ}

namespace Globals

theorem SameHeap.refl (g : Globals) : SameHeap g g := by
  constructor <;> intros <;> rfl

theorem SameHeap.trans (h : SameHeap g g') (h' : SameHeap g' g'') : SameHeap g g'' where
  live := h'.live.trans h.live
  serial := h'.serial.trans h.serial
  serialAt b := (h'.serialAt b).trans (h.serialAt b)
  pCtxtBack b := (h'.pCtxtBack b).trans (h.pCtxtBack b)
  pCtxtForward b := (h'.pCtxtForward b).trans (h.pCtxtForward b)
  length b := (h'.length b).trans (h.length b)
  pCtxtList := h'.pCtxtList.trans h.pCtxtList

theorem sameHeap_createSocket (ok : Bool) : SameHeap g (g.createSocket ok).1 := by
  cases ok <;> constructor <;> intros <;> rfl

theorem sameHeap_modifyIo (a : Addr) (f : PerIoContext → PerIoContext) :
    SameHeap g (g.modifyIo a f) := by
  constructor <;> try first | rfl | (intro b; simp [modifyIo]; done)
  intro b
  simp only [modifyIo, ctxt_modify_pIOContext]
  split_ifs
  · exact List.length_modifyHead
  · rfl

theorem sameHeap_createAccept {ok : Bool} (h : g.createAccept ok = some g') : SameHeap g g' := by
  obtain ⟨a, io, -, -, rfl⟩ := createAccept_cases h
  exact (sameHeap_createSocket ok).trans (sameHeap_modifyIo a _)

theorem sameHeap_acceptEx {started : Bool} (h : g.acceptEx started = some g') : SameHeap g g' := by
  obtain ⟨a, io, -, -, rfl⟩ := acceptEx_cases h
  cases started with
  | true => exact sameHeap_modifyIo a _
  | false => exact .refl g

theorem sameHeap_closeSockets (a : Addr) (io : PerIoContext) : SameHeap g (g.closeSockets a io) := by
  constructor <;> try first | rfl | (intro b; simp [closeSockets, modifyIo]; done)
  intro b
  rw [closeSockets_pIOContext]
  split_ifs
  · exact List.length_modifyHead
  · rfl

/-- **A context is freed.** -/
theorem ownsContext_free (H : Holding n (g.OwnsContext freed)) (hn : freed.Nodup)
    (ha : g.live a = true) (hlive : g'.live = Function.update g.live a false)
    (hserial : ∀ b, (g'.ctxt b).serial = (g.ctxt b).serial) :
    (freed ++ [(g.ctxt a).serial]).Nodup ∧
      Holding n (g'.OwnsContext (freed ++ [(g.ctxt a).serial])) := by
  have hx : g.OwnsContext freed (some a) (g.ctxt a).serial := ⟨ha, rfl⟩
  constructor
  · rw [List.nodup_append]
    refine ⟨hn, List.nodup_singleton _, fun x hx' y hy => ?_⟩
    obtain rfl := List.mem_singleton.mp hy
    rintro rfl
    cases H.unique _ none _ hx' hx
  · refine H.move none hx fun r c => ?_
    cases r with
    | none => simp [OwnsContext]
    | some b =>
      by_cases e : b = a
      · subst e
        simp only [OwnsContext, hlive, Function.update_self]
        grind
      · simp [OwnsContext, hlive, hserial, e]

/-- **A context is allocated.** -/
theorem ownsContext_allocate (H : Holding g.serial (g.OwnsContext freed)) (ha : g.live a = false)
    (hlive : g'.live = Function.update g.live a true) (hself : (g'.ctxt a).serial = g.serial)
    (hother : ∀ b, b ≠ a → (g'.ctxt b).serial = (g.ctxt b).serial) :
    Holding (g.serial + 1) (g'.OwnsContext freed) := by
  refine H.make (some a) fun r c => ?_
  cases r with
  | none => simp [OwnsContext]
  | some b =>
    by_cases e : b = a
    · subst e
      simp [OwnsContext, hlive, hself, ha, eq_comm]
    · simp [OwnsContext, hlive, hother b e, e]

end Globals

theorem Remaining.same (h : Remaining g listed) (S : SameHeap g g') : Remaining g' listed :=
  h.congr S.live S.pCtxtBack S.pCtxtForward S.length S.pCtxtList

/-- `CloseClient` of a listed context: the links are repaired, and the head is right exactly if it is
one of the deletions that keep the list. -/
theorem closeClient_remaining (h : closeClient a g = some g') (hr : Remaining g (l₁ ++ a :: l₂)) :
    Remaining g' (l₁ ++ l₂) ∧ (g.pCtxtList = (l₁ ++ a :: l₂).head? →
      (g'.pCtxtList = (l₁ ++ l₂).head? ↔ Repaired (l₁ ++ a :: l₂) a)) := by
  obtain ⟨io, -, -, rfl⟩ := closeClient_cases h
  have S : SameHeap g ((g.closeSockets a io).enter.touch a) := by
    refine (sameHeap_closeSockets a io).trans ?_
    constructor <;> intros <;> rfl
  have hr' : Remaining ((g.closeSockets a io).enter.touch a) (l₁ ++ a :: l₂) :=
    hr.same S
  have ha : a ∉ l₁ ++ l₂ := by
    have := List.nodup_middle.mp hr.nodup
    exact (List.nodup_cons.mp this).1
  constructor
  · refine (hr'.erase.free ha).same ?_
    constructor <;> intros <;> rfl
  · intro hhead
    exact ctxtListRelink_head_iff hr'.nodup (S.pCtxtList.trans hhead) hr'.seg

namespace Filed

theorem same (h : Filed g listed freed loose) (S : SameHeap g g') (e : ∀ a, loose' a ↔ loose a) :
    Filed g' listed freed loose' where
  nodup := h.nodup
  contexts := by
    rw [S.serial]
    refine h.contexts.congr fun r c => ?_
    cases r with
    | none => exact Iff.rfl
    | some a => simp only [Globals.OwnsContext, S.live, S.serialAt]
  live_iff a := by rw [S.live, h.live_iff, e]
  apart a ha hl := h.apart a ha ((e a).mp hl)
  io a ha := by
    obtain ⟨io, hio⟩ := h.io a (S.live ▸ ha)
    rw [← List.length_eq_one_iff, S.length, hio]
    rfl
  remaining := h.remaining.same S

/-- A thread makes a context. -/
theorem allocate (h : Filed g listed freed loose) (ha : g.live a = false) (sd : Option Socket)
    (op : IoOperation) (e : ∀ b, loose' b ↔ b = a ∨ loose b) :
    Filed (ctxtAllocate sd op (.ok a) g).1 listed freed loose' := by
  have hne : ∀ b ∈ listed, b ≠ a := by
    rintro b hb rfl
    rw [h.remaining.live b hb] at ha
    cases ha
  have hlive : (ctxtAllocate sd op (.ok a) g).1.live = Function.update g.live a true := rfl
  refine ⟨h.nodup, ?_, fun b => ?_, fun b hb hl => ?_, fun b hb => ?_, ?_⟩
  · refine ownsContext_allocate h.contexts ha hlive ?_ fun b hb => ?_
    · simp [ctxtAllocate]
    · simp [ctxtAllocate, hb]
  · rw [hlive, e]
    by_cases hb : b = a
    · simp [hb]
    · rw [Function.update_of_ne hb, h.live_iff]
      simp [hb]
  · rcases (e b).mp hl with rfl | hl
    · exact hne b hb rfl
    · exact h.apart b hb hl
  · by_cases hba : b = a
    · exact ⟨.initial op, by simp [ctxtAllocate, hba]⟩
    · rw [hlive, Function.update_of_ne hba] at hb
      simpa [ctxtAllocate, hba] using h.io b hb
  · have hr := h.remaining
    refine ⟨hr.nodup, fun b hb => ?_, hr.seg.congr (fun b hb => ?_) fun b hb => ?_, fun b hb => ?_,
      hr.null⟩
    · simpa [ctxtAllocate, hne b hb] using hr.live b hb
    · simp [ctxtAllocate, hne b hb]
    · simp [ctxtAllocate, hne b hb]
    · simpa [ctxtAllocate, hne b hb] using hr.io b hb

/-- A thread frees its context. -/
theorem free (h : Filed g listed freed loose) (ha : loose a) (e : ∀ b, loose' b ↔ loose b ∧ b ≠ a) :
    Filed (g.free a) listed (freed ++ [(g.ctxt a).serial]) loose' := by
  have hlive := (h.live_iff a).mpr (.inr ha)
  obtain ⟨hn, hH⟩ := ownsContext_free h.contexts h.nodup hlive (rfl : (g.free a).live = _)
    fun _ => rfl
  have hnot : a ∉ listed := fun hmem => h.apart a hmem ha
  refine ⟨hn, hH, fun b => ?_, fun b hb hl => h.apart b hb ((e b).mp hl).1, fun b hb => ?_,
    h.remaining.free hnot⟩
  · rw [Globals.free_live, e]
    by_cases hb : b = a
    · simp [hb, hnot]
    · rw [Function.update_of_ne hb, h.live_iff]
      simp [hb]
  · rw [Globals.free_live] at hb
    by_cases hba : b = a
    · simp [hba] at hb
    · rw [Function.update_of_ne hba] at hb
      exact h.io b hb

/-- A thread adds its context to the list. -/
theorem addTo (h : Filed g listed freed loose) (hc : loose c) (hhead : g.pCtxtList = listed.head?)
    (e : ∀ b, loose' b ↔ loose b ∧ b ≠ c) :
    Filed (ctxtListAddTo c g) (c :: listed) freed loose' := by
  have hlive := (h.live_iff c).mpr (.inr hc)
  have hnot : c ∉ listed := fun hmem => h.apart c hmem hc
  have W : Within g (ctxtListAddTo c g) none := within_ctxtListAddTo c none
  refine ⟨h.nodup, ?_, fun b => ?_, fun b hb hl => ?_, fun b hb => ?_,
    h.remaining.addTo hhead hnot hlive (h.io c hlive)⟩
  · rw [W.serial]
    refine h.contexts.congr fun r c => ?_
    cases r with
    | none => exact Iff.rfl
    | some a => simp only [Globals.OwnsContext, W.live, W.serialAt]
  · rw [W.live, h.live_iff, e, List.mem_cons]
    by_cases hb : b = c
    · simp [hb, hc]
    · simp [hb]
  · obtain ⟨hl, hne⟩ := (e b).mp hl
    rcases List.mem_cons.mp hb with rfl | hb
    · exact hne rfl
    · exact h.apart b hb hl
  · rw [W.live] at hb
    rw [W.pIOContext b nofun]
    exact h.io b hb

/-- **A client of the list is closed.** -/
theorem closeClient (h : Filed g listed freed loose) (ha : a ∈ listed)
    (hc : closeClient a g = some g') :
    Filed g' (listed.erase a) (freed ++ [(g.ctxt a).serial]) loose := by
  obtain ⟨K, hlive, -, -⟩ := closeClient_spec hc
  have hla := h.remaining.live a ha
  obtain ⟨hn, hH⟩ := ownsContext_free h.contexts h.nodup hla hlive K.serialAt
  refine ⟨hn, ?_, fun b => ?_, fun b hb => h.apart b (List.mem_of_mem_erase hb), fun b hb => ?_, ?_⟩
  · rw [K.serial]
    exact hH
  · rw [hlive, h.remaining.nodup.mem_erase_iff]
    by_cases hb : b = a
    · simp [hb, h.apart a ha]
    · rw [Function.update_of_ne hb, h.live_iff]
      simp [hb]
  · rw [hlive] at hb
    by_cases hba : b = a
    · simp [hba] at hb
    · rw [Function.update_of_ne hba] at hb
      rw [K.pIOContext b fun e => hba (Option.some.inj e).symm]
      exact h.io b hb
  · obtain ⟨l₁, l₂, rfl⟩ := List.append_of_mem ha
    have hnot : a ∉ l₁ := fun hmem =>
      (List.nodup_append.mp h.remaining.nodup).2.2 a hmem a List.mem_cons_self rfl
    rw [List.erase_append_right _ hnot, List.erase_cons_head]
    exact (closeClient_remaining hc h.remaining).1

end Filed

end Heap

/-! ## The contexts of a run -/

namespace LoopWorker

/-- The client that the worker has made and not added to the list. -/
def unlisted : LoopWorker → Option Addr
  | .associate c | .addTo c => some c
  | _ => none

/-- The client whose `pIOContext` the worker has not followed yet. -/
def unread : LoopWorker → Option Addr
  | .associate c | .addTo c | .prepare c => some c
  | _ => none

theorem serving_of_unlisted {c : Addr} (w : LoopWorker) (h : w.unlisted = some c) :
    w.serving = true := by
  cases w <;> first | rfl | cases h

theorem serving_of_unread {c : Addr} (w : LoopWorker) (h : w.unread = some c) :
    w.serving = true := by
  cases w <;> first | rfl | cases h

end LoopWorker

namespace LoopPc

/-- The statements of `main` that have a context in a local variable. -/
@[simp] def atContext : LoopPc → Bool
  | .associate _ | .rest (.closeAccept _) | .rest (.closeNext _) => true
  | _ => false

/-- `main` goes on, between statements that have no context in a local variable. -/
structure Passes (pc pc' : LoopPc) : Prop where
  before : pc.atContext = false
  after : pc'.atContext = false
  accept : pc'.rank ≤ 14 ∨ 27 ≤ pc'.rank → pc.rank ≤ 14 ∨ 27 ≤ pc.rank
  clients : pc'.rank ≤ 15 ∨ 27 ≤ pc'.rank → pc.rank ≤ 15 ∨ 27 ≤ pc.rank

end LoopPc

namespace RestartLoop

variable (s : RestartLoop)

/-- A worker has the context and has not added it to the list. -/
def Unlisted (c : Addr) : Prop := ∃ w ∈ s.threads, w.unlisted = some c

/-- `main` has the context. -/
def MainContext (a : Addr) : Prop := s.pc = .associate a ∨ s.g.pCtxtListenSocket = some a

/-- Some thread has the context outside the list. -/
def Loose (a : Addr) : Prop := s.Unlisted a ∨ s.MainContext a

/-- A thread is about to follow the NULL `pIOContext` of a block that was freed before it was used. -/
def Stuck : Prop :=
  (∃ c, (∃ w ∈ s.threads, w.unread = some c) ∧ s.g.io c = none) ∨
    s.load = 0 ∧ 12 ≤ s.pc.rank ∧ s.pc.rank ≤ 23 ∧ ∃ a, s.MainContext a ∧ s.g.io a = none

/-- The contexts, and how far `main` is in freeing them. -/
structure ContextsKept : Prop extends Filed s.g s.listed s.freed s.Loose where
  unshared : ∀ a, s.Unlisted a → ¬ s.MainContext a
  head : (∀ p, s.pc ≠ .rest (.closeNext p)) → s.g.pCtxtList = s.listed.head?
  next : ∀ p, s.pc = .rest (.closeNext p) → p = s.listed.head?
  noClients : s.pc.rank ≤ 15 ∨ 27 ≤ s.pc.rank → s.listed = []
  closing : ∀ a, s.pc = .rest (.closeAccept a) → s.g.pCtxtListenSocket = some a

variable {s} {s' : RestartLoop} {pc : LoopPc} {ans : LoopAnswer} {t : ℕ} {w : LoopWorker}
  {m : WorkerMove} {g : Globals} {a c : Addr}

theorem Jump.passes {pc' : LoopPc} (h : s.Jump pc pc') : pc.Passes pc' := by
  cases h <;> constructor <;> simp

theorem mainContext_iff (hp : s.pc.Passes s'.pc)
    (hk : s'.g.pCtxtListenSocket = s.g.pCtxtListenSocket) (a : Addr) :
    s'.MainContext a ↔ s.MainContext a := by
  have hne : ∀ {pc : LoopPc}, pc.atContext = false → pc ≠ .associate a := by
    rintro _ h rfl
    cases h
  unfold MainContext
  rw [hk]
  simp [hne hp.before, hne hp.after]

/-- A step that makes, frees and links no context. -/
theorem ContextsKept.same (h : s.ContextsKept) (S : SameHeap s.g s'.g) (hl : s'.listed = s.listed)
    (hf : s'.freed = s.freed) (hk : s'.g.pCtxtListenSocket = s.g.pCtxtListenSocket)
    (hu : ∀ c, s'.Unlisted c ↔ s.Unlisted c) (hp : s'.pc = s.pc ∨ s.pc.Passes s'.pc) :
    s'.ContextsKept := by
  have hm : ∀ a, s'.MainContext a ↔ s.MainContext a := by
    intro a
    rcases hp with hp | hp
    · unfold MainContext
      rw [hp, hk]
    · exact mainContext_iff hp hk a
  have hfiled : Filed s'.g s'.listed s'.freed s'.Loose := by
    rw [hl, hf]
    exact h.toFiled.same S fun a => or_congr (hu a) (hm a)
  refine ⟨hfiled, fun a ha hma => h.unshared a ((hu a).mp ha) ((hm a).mp hma), fun hpc => ?_,
    fun p hpc => ?_, fun hr => ?_, fun a hpc => ?_⟩
  · rw [S.pCtxtList, hl]
    rcases hp with hp | hp
    · exact h.head fun p => hp ▸ hpc p
    · exact h.head fun p e => by simpa [e] using hp.before
  · rw [hl]
    rcases hp with hp | hp
    · exact h.next p (hp ▸ hpc)
    · simpa [hpc] using hp.after
  · rw [hl]
    rcases hp with hp | hp
    · exact h.noClients (hp ▸ hr)
    · exact h.noClients (hp.clients hr)
  · rcases hp with hp | hp
    · exact hk.trans (h.closing a (hp ▸ hpc))
    · simpa [hpc] using hp.after

/-! ### A step of a worker -/

/-- A step of a worker that makes, frees and links no context. -/
theorem LoopWorkerStep.sameHeap (h : LoopWorkerStep s t w m s') (hC : s.Cleans (.worker t m))
    (hm : (∀ x, m ≠ .allocate x) ∧ m ≠ .addTo ∧ ∀ a, m ≠ .closeClient a) :
    SameHeap s.g s'.g ∧ s'.listed = s.listed ∧ s'.freed = s.freed := by
  cases h with
  | allocated | noMemory => exact absurd rfl (hm.1 _)
  | added => exact absurd rfl hm.2.1
  | closed => exact absurd rfl (hm.2.2 _)
  | associateFailed => cases hC
  | associated =>
    refine ⟨?_, rfl, rfl⟩
    constructor <;> intros <;> rfl
  | created hg | createFailed hg => exact ⟨sameHeap_createAccept hg, rfl, rfl⟩
  | acceptEx hg => exact ⟨sameHeap_acceptEx hg, rfl, rfl⟩
  | _ => exact ⟨.refl _, rfl, rfl⟩

/-- The contexts while a worker runs: `main` is at none of its loops over them. -/
theorem ContextsKept.of_running (hr : s.pc.rank < 21) (hpc : s'.pc = s.pc)
    (hf : Filed s'.g s'.listed s'.freed s'.Loose)
    (hu : ∀ a, s'.Unlisted a → ¬ s'.MainContext a) (hhead : s'.g.pCtxtList = s'.listed.head?)
    (hn : s.pc.rank ≤ 15 → s'.listed = []) : s'.ContextsKept := by
  have hlate : ∀ pc : FinallyPc, pc ≠ .waitThreads → s'.pc ≠ .rest pc := by
    rintro pc hne e
    rw [← hpc, e] at hr
    cases pc <;> first | exact hne rfl | (simp at hr)
  refine ⟨hf, hu, fun _ => hhead, fun p e => absurd e (hlate _ nofun), fun h => ?_,
    fun a e => absurd e (hlate _ nofun)⟩
  rw [hpc] at h
  exact hn (by omega)

/-- The list and its head while a worker runs. -/
theorem ContextsKept.head_of_running (h : s.ContextsKept) (hr : s.pc.rank < 21) :
    s.g.pCtxtList = s.listed.head? := by
  refine h.head fun p e => ?_
  rw [e] at hr
  exact absurd hr (by simp)

theorem unlisted_set_same (ht : s.threads[t]? = some w) {x : LoopWorker}
    (hth : s'.threads = s.threads.set t x) (hx : x.unlisted = w.unlisted) (c : Addr) :
    s'.Unlisted c ↔ s.Unlisted c := by
  unfold Unlisted
  rw [hth]
  exact exists_mem_set_iff ht (by rw [hx])

/-- A worker makes a context for its client. -/
theorem ContextsKept.worker_allocate {sd : Option Socket} {op : IoOperation} (hK : s.ContextsKept)
    (hr : s.pc.rank < 21) (hpc : s'.pc = s.pc) (hc : s.g.live c = false)
    (hg : s'.g = (ctxtAllocate sd op (.ok c) s.g).1) (hl : s'.listed = s.listed)
    (hf : s'.freed = s.freed) (hold : ∀ b, ¬ s.Unlisted b) (hnew : ∀ b, s'.Unlisted b ↔ c = b)
    (hmain : ∀ b, s'.MainContext b ↔ s.MainContext b) : s'.ContextsKept := by
  refine .of_running hr hpc ?_ (fun b hb hmb => ?_) ?_ fun hn => hl.trans (hK.noClients (.inl hn))
  · rw [hg, hl, hf]
    refine hK.toFiled.allocate hc sd op fun b => ?_
    simp only [Loose, hnew, hmain, hold, eq_comm, false_or]
  · have := (hK.live_iff b).mpr (.inr (.inr ((hmain b).mp hmb)))
    rw [← (hnew b).mp hb, hc] at this
    cases this
  · rw [hg, hl]
    exact hK.head_of_running hr

/-- It adds it to the list. -/
theorem ContextsKept.worker_addTo (hK : s.ContextsKept) (hr : s.pc.rank < 21) (hpc : s'.pc = s.pc)
    (hg : s'.g = ctxtListAddTo c s.g) (hl : s'.listed = c :: s.listed) (hf : s'.freed = s.freed)
    (hold : ∀ b, s.Unlisted b ↔ c = b) (hload : ¬ s.pc.rank ≤ 15) (hnew : ∀ b, ¬ s'.Unlisted b)
    (hmain : ∀ b, s'.MainContext b ↔ s.MainContext b) : s'.ContextsKept := by
  have hc := (hold c).mpr rfl
  refine .of_running hr hpc ?_ (fun b hb => absurd hb (hnew b)) ?_ fun hn => absurd hn hload
  · rw [hg, hl, hf]
    refine hK.toFiled.addTo (.inl hc) (hK.head_of_running hr) fun b => ?_
    have hne : s.MainContext b → b ≠ c := by
      rintro hb rfl
      exact hK.unshared b hc hb
    simp only [Loose, hold, hmain]
    have := hnew b
    grind
  · rw [hg, hl]
    simp [ctxtListAddTo]

/-- **A step of a worker.** -/
theorem ContextsKept.worker (hK : s.ContextsKept) (hA : s.Attended) (h : LoopWorkerStep s t w m s')
    (ht : s.threads[t]? = some w) (hC : s.Cleans (.worker t m)) : s'.Stuck ∨ s'.ContextsKept := by
  have hf := h.frame ht
  have hsame := h.sameHeap hC
  have hserve : w.serving = true → ∀ c, s.Unlisted c ↔ w.unlisted = some c := fun hw c =>
    exists_serving_iff LoopWorker.serving_of_unlisted hA.load_le ht hw
  have hset : w.serving = true → ∀ x, s'.threads = s.threads.set t x →
      ∀ c, s'.Unlisted c ↔ x.unlisted = some c := by
    intro hw x hth c
    unfold Unlisted
    rw [hth]
    exact exists_set_iff LoopWorker.serving_of_unlisted hA.load_le ht hw x
  have hmain : ∀ a, s'.MainContext a ↔ s.MainContext a := by
    intro a
    unfold MainContext
    rw [hf.pc, hf.pCtxtListenSocket]
  cases h with
  | closed hw ha hg =>
    obtain ⟨-, hr⟩ := hA.running ht hw
    refine .inr (.of_running hr rfl ((hK.toFiled.closeClient ha hg).same (.refl _) fun b => ?_)
      (fun b hb hmb => hK.unshared b hb ((hmain b).mp hmb)) ?_ fun hn => ?_)
    · exact or_congr Iff.rfl (hmain b)
    · obtain ⟨l₁, l₂, hl⟩ := List.append_of_mem ha
      have hhead := hK.head_of_running hr
      have hrep : Repaired s.listed _ := hC
      have hrem := hK.remaining
      rw [hl] at hhead hrep hrem ⊢
      have hnot : _ ∉ l₁ := fun hmem =>
        (List.nodup_append.mp hrem.nodup).2.2 _ hmem _ List.mem_cons_self rfl
      rw [List.erase_append_right _ hnot, List.erase_cons_head]
      exact ((closeClient_remaining hg hrem).2 hhead).mpr hrep
    · rw [hK.noClients (.inl hn)] at ha
      cases ha
  | @allocated x k io c hx hk hio hc =>
    have hr := (hA.running ht nofun).2
    cases x with
    | noSocketContext => cases hc
    | noIoContext b =>
      obtain rfl := Option.some.inj hc
      refine .inl (.inl ⟨b, ⟨.associate b, List.mem_set (List.getElem?_eq_some_iff.mp ht).1 _, rfl⟩, ?_⟩)
      simp
    | ok b =>
      obtain rfl := Option.some.inj hc
      have hnew : ∀ a, Unlisted _ a ↔ b = a := fun a =>
        (hset rfl (.associate b) rfl a).trans Option.some_inj
      exact .inr (hK.worker_allocate hr rfl (by simpa using hx) rfl rfl
        (List.append_nil _) (fun a ha => nomatch (hserve rfl a).mp ha) hnew hmain)
  | @added c =>
    have hr := (hA.running ht nofun).2
    have hload : ¬ s.pc.rank ≤ 15 := fun h => nomatch hA.not_serving ht (.inl h)
    exact .inr (hK.worker_addTo hr rfl rfl rfl rfl
      (fun a => (hserve rfl a).trans Option.some_inj) hload
      (fun a ha => nomatch (hset rfl (.prepare c) rfl a).mp ha) hmain)
  | associateFailed => cases hC
  | noMemory =>
    refine .inr (hK.same ?_ rfl rfl rfl (unlisted_set_same ht rfl rfl) (.inl rfl))
    constructor <;> intros <;> rfl
  | _ =>
    obtain ⟨S, hl, hfr⟩ := hsame ⟨nofun, nofun, nofun⟩
    exact .inr (hK.same S hl hfr hf.pCtxtListenSocket (unlisted_set_same ht rfl rfl) (.inl rfl))

/-! ### A step of `main` -/

theorem unlisted_congr (h : s'.threads = s.threads) (c : Addr) : s'.Unlisted c ↔ s.Unlisted c := by
  unfold Unlisted
  rw [h]

/-- `main` leaves the workers alone, and a new one has nothing. -/
theorem LoopStep.exists_threads_iff (h : LoopStep s pc ans s') {P : LoopWorker → Prop}
    (hP : ¬ P .getStatus) : (∃ w ∈ s'.threads, P w) ↔ ∃ w ∈ s.threads, P w := by
  cases h with
  | threadCreated =>
    constructor
    · rintro ⟨w, hw, hp⟩
      rcases List.mem_append.mp hw with hw | hw
      · exact ⟨w, hw, hp⟩
      · obtain rfl := List.mem_singleton.mp hw
        exact absurd hp hP
    · rintro ⟨w, hw, hp⟩
      exact ⟨w, List.mem_append_left _ hw, hp⟩
  | _ => exact Iff.rfl

theorem LoopStep.unlisted_iff (h : LoopStep s pc ans s') (c : Addr) :
    s'.Unlisted c ↔ s.Unlisted c :=
  h.exists_threads_iff nofun

/-- Outside the time of the workers no context is on its way into the list. -/
theorem Attended.not_unlisted (hA : s.Attended) (hr : s.pc.rank ≤ 15 ∨ 21 ≤ s.pc.rank) (c : Addr) :
    ¬ s.Unlisted c := by
  rintro ⟨w, hw, hc⟩
  obtain ⟨t, ht⟩ := List.getElem?_of_mem hw
  have := w.serving_of_unlisted hc
  rw [hA.not_serving ht hr] at this
  cases this

/-- `main` makes its listening context; no other is allocated. -/
theorem ContextsKept.main_allocate (hK : s.ContextsKept) (hA : s.Attended) (hpc : s.pc = .allocate)
    (hpc' : s'.pc = .associate a) (ha : s.g.live a = false)
    (hg : s'.g = (ctxtAllocate s.g.sdListen .clientIoAccept (.ok a) s.g).1)
    (hl : s'.listed = s.listed) (hf : s'.freed = s.freed) (hth : s'.threads = s.threads) :
    s'.ContextsKept := by
  have hr : s.pc.rank = 11 := by rw [hpc]; rfl
  have hnone := hA.noContext (.inl (by omega))
  have hun := hA.not_unlisted (.inl (by omega))
  have hun' : ∀ b, ¬ s'.Unlisted b := fun b hb => hun b ((unlisted_congr hth b).mp hb)
  have hmain : ∀ b, ¬ s.MainContext b := by
    rintro b (hb | hb)
    · rw [hpc] at hb
      cases hb
    · rw [hnone] at hb
      cases hb
  have hmain' : ∀ b, s'.MainContext b ↔ b = a := by
    intro b
    have hlisten : s'.g.pCtxtListenSocket = none := by
      rw [hg]
      exact hnone
    simp [MainContext, hpc', hlisten, eq_comm]
  refine ⟨?_, fun b hb => absurd hb (hun' b), fun _ => ?_, fun p h => ?_, fun _ => ?_, fun b h => ?_⟩
  · rw [hg, hl, hf]
    refine hK.toFiled.allocate ha _ _ fun b => ?_
    simp only [Loose, hmain', hmain, hun, hun', false_or, or_false]
  · rw [hg, hl]
    exact hK.head fun p h => by rw [hpc] at h; cases h
  · rw [hpc'] at h
    cases h
  · exact hl.trans (hK.noClients (.inl (by omega)))
  · rw [hpc'] at h
    cases h

/-- It puts it into `g_pCtxtListenSocket`. -/
theorem ContextsKept.main_associate (hK : s.ContextsKept) (hA : s.Attended)
    (hpc : s.pc = .associate a) (hpc' : s'.pc = .ioctl)
    (hlisten : s'.g.pCtxtListenSocket = some a) (S : SameHeap s.g s'.g) (hl : s'.listed = s.listed)
    (hf : s'.freed = s.freed) (hth : s'.threads = s.threads) : s'.ContextsKept := by
  have hr : s.pc.rank = 12 := by rw [hpc]; rfl
  have hnone := hA.noContext (.inl (by omega))
  have hun' : ∀ b, ¬ s'.Unlisted b := fun b hb =>
    hA.not_unlisted (.inl (by omega)) b ((unlisted_congr hth b).mp hb)
  refine ⟨?_, fun b hb => absurd hb (hun' b), fun _ => ?_, fun p h => ?_, fun _ => ?_, fun b h => ?_⟩
  · rw [hl, hf]
    refine hK.toFiled.same S fun b => or_congr (unlisted_congr hth b) ?_
    simp [MainContext, hpc, hpc', hlisten, hnone]
  · rw [S.pCtxtList, hl]
    exact hK.head fun p h => by rw [hpc] at h; cases h
  · rw [hpc'] at h
    cases h
  · exact hl.trans (hK.noClients (.inl (by omega)))
  · rw [hpc'] at h
    cases h

/-- The contexts behind the wait, where no worker runs any more. -/
theorem Attended.contexts_clean {pc pc' : FinallyPc} {g : Globals} (hA : s.Attended)
    (hpc : s.pc = .rest pc) (hr : 22 ≤ pc.rank ∧ pc.rank ≤ pc'.rank)
    (hf : Filed g (pc.keeps s.listed) (s.freed ++ pc.frees s.g) fun a => g.pCtxtListenSocket = some a)
    (hhead : (∀ p, pc' ≠ .closeNext p) → g.pCtxtList = (pc.keeps s.listed).head?)
    (hnext : ∀ p, pc' = .closeNext p → p = (pc.keeps s.listed).head?)
    (hn : 27 ≤ pc'.rank → pc.keeps s.listed = [])
    (hclosing : ∀ a, pc' = .closeAccept a → g.pCtxtListenSocket = some a) :
    ContextsKept { s.record pc with g := g, pc := .rest pc' } := by
  have hrank : s.pc.rank = pc.rank := by rw [hpc]; rfl
  have hun : ∀ b, ¬ Unlisted { s.record pc with g := g, pc := .rest pc' } b :=
    hA.not_unlisted (.inr (by omega))
  refine ⟨hf.same (.refl _) fun b => ?_, fun b hb => absurd hb (hun b), fun h => ?_, fun p h => ?_,
    fun h => hn ?_, fun a h => hclosing a (LoopPc.rest.inj h)⟩
  · have : LoopPc.rest pc' ≠ .associate b := nofun
    simp [Loose, hun, MainContext]
  · exact hhead fun p e => h p (congrArg LoopPc.rest e)
  · exact hnext p (LoopPc.rest.inj h)
  · rcases h with h | h
    · have : pc'.rank ≤ 15 := h
      omega
    · exact h

/-- **A step behind the wait.** -/
theorem ContextsKept.cleaned {pc pc' : FinallyPc} (hK : s.ContextsKept) (hA : s.Attended)
    (hpc : s.pc = .rest pc) (h : CleanStep s.g pc g pc') :
    ContextsKept { s.record pc with g := g, pc := .rest pc' } := by
  have hr := h.rank_lt
  have hrank : s.pc.rank = pc.rank := by rw [hpc]; rfl
  have hfiled : Filed s.g s.listed s.freed fun a => s.g.pCtxtListenSocket = some a := by
    refine hK.toFiled.same (.refl _) fun b => ?_
    simp [Loose, MainContext, hpc, hA.not_unlisted (.inr (by omega : 21 ≤ s.pc.rank)) b]
  have hhead : (∀ p, pc ≠ .closeNext p) → s.g.pCtxtList = s.listed.head? := fun h =>
    hK.head fun p e => h p (LoopPc.rest.inj (hpc.symm.trans e))
  have hnone : s.freed ++ [] = s.freed := List.append_nil _
  cases h with
  | listenClosed =>
    refine hA.contexts_clean hpc ⟨hr.1, hr.2.1⟩ ?_ (fun _ => hhead nofun) nofun nofun nofun
    refine hnone.symm ▸ hfiled.same ?_ fun _ => Iff.rfl
    constructor <;> intros <;> rfl
  | noContext =>
    refine hA.contexts_clean hpc ⟨hr.1, hr.2.1⟩ ?_ (fun _ => hhead nofun) nofun nofun nofun
    exact hnone.symm ▸ hfiled
  | @completed a io hl =>
    refine hA.contexts_clean hpc ⟨hr.1, hr.2.1⟩ ?_ (fun _ => hhead nofun) nofun
      (by simp) fun b hb => ?_
    · refine hnone.symm ▸ hfiled.same ?_ fun _ => Iff.rfl
      constructor <;> intros <;> rfl
    · exact hl.trans (congrArg some (FinallyPc.closeAccept.inj hb))
  | @acceptClosed a io hio =>
    have hlisten := hK.closing a hpc
    refine hA.contexts_clean hpc ⟨hr.1, hr.2.1⟩ ?_ (fun _ => hhead nofun) nofun nofun nofun
    have S : SameHeap s.g ((s.g.closesocket io.socketAccept).modifyIo a fun io =>
        { io with socketAccept := none }) := by
      refine .trans ?_ (sameHeap_modifyIo a _)
      constructor <;> intros <;> rfl
    have hfree := (hfiled.same S fun _ => Iff.rfl).free hlisten fun b => show False ↔ _ by
      rw [hlisten, Option.some.injEq]
      grind
    rw [S.serialAt] at hfree
    refine hfree.same ?_ fun b => iff_of_false nofun id
    constructor <;> intros <;> rfl
  | entered =>
    refine hA.contexts_clean hpc ⟨hr.1, hr.2.1⟩ ?_ (fun h => absurd rfl (h _)) (fun p hp => ?_)
      (by simp) nofun
    · refine hnone.symm ▸ hfiled.same ?_ fun _ => Iff.rfl
      constructor <;> intros <;> rfl
    · exact (FinallyPc.closeNext.inj hp).symm.trans (hhead nofun)
  | @closed a _ hg =>
    obtain ⟨rest, hl⟩ := List.head?_eq_some_iff.mp (hK.next (some a) hpc).symm
    have hmem : a ∈ s.listed := hl ▸ List.mem_cons_self
    have hS : SameHeap s.g (s.g.touch a) := by
      constructor <;> intros <;> rfl
    have hK' := (closeClient_spec hg).1
    refine hA.contexts_clean hpc ⟨hr.1, hr.2.1⟩ ?_ (fun h => absurd rfl (h _)) (fun p hp => ?_)
      (by simp) nofun
    · refine ((hfiled.same hS fun _ => Iff.rfl).closeClient hmem hg).same (.refl _) fun b => ?_
      rw [hK'.pCtxtListenSocket]
      exact Iff.rfl
    · have hback := (Remaining.links (hl ▸ hK.remaining)).1
      rw [← FinallyPc.closeNext.inj hp, hback, FinallyPc.keeps, hl, List.erase_cons_head]
  | listFreed =>
    have hl : s.listed = [] := List.head?_eq_none_iff.mp (hK.next none hpc).symm
    refine hA.contexts_clean hpc ⟨hr.1, hr.2.1⟩ ?_ (fun _ => ?_) nofun (fun _ => hl) nofun
    · refine hnone.symm ▸ hfiled.same ?_ fun _ => Iff.rfl
      constructor <;> intros <;> rfl
    · exact (hK.remaining.null hl).trans (congrArg List.head? hl).symm
  | portClosed =>
    have hl := hK.noClients (.inr (by rw [hpc]; decide))
    refine hA.contexts_clean hpc ⟨hr.1, hr.2.1⟩ ?_ (fun _ => hhead nofun) nofun (fun _ => hl) nofun
    refine hnone.symm ▸ hfiled.same ?_ fun _ => Iff.rfl
    constructor <;> intros <;> rfl

/-- **A step of `main`.** -/
theorem ContextsKept.main (hK : s.ContextsKept) (hA : s.Attended) (h : LoopStep s s.pc ans s')
    (hC : s.Cleans (.main ans)) : s'.Stuck ∨ s'.ContextsKept := by
  have hun := h.unlisted_iff
  generalize hpc : s.pc = pc at h
  cases h with
  | jump h => exact .inr (hK.same (.refl _) rfl rfl rfl hun (.inr (hpc ▸ h.passes)))
  | cleaned h => exact .inr (hK.cleaned hA hpc h)
  | @allocated _ x a hx ha =>
    have hload := hA.idle (.inl (by rw [hpc]; decide))
    cases x with
    | noSocketContext => cases ha
    | noIoContext b =>
      obtain rfl := Option.some.inj ha
      refine .inl (.inr ⟨?_, Nat.le_refl 12, Nat.le_add_right 12 11, b, .inl rfl, ?_⟩)
      · have := pendings_allocate s.g.sdListen .clientIoAccept (.noIoContext b) s.g
        simp only [load] at hload ⊢
        omega
      · simp
    | ok b =>
      obtain rfl := Option.some.inj ha
      exact .inr (hK.main_allocate hA hpc rfl (by simpa using hx) rfl rfl
        (List.append_nil _) rfl)
  | noMemory =>
    have hnone := hA.noContext (by rw [hpc]; decide)
    refine .inr (hK.same ?_ rfl rfl hnone.symm hun (.inr (hpc ▸ ?_)))
    · constructor <;> intros <;> rfl
    · constructor <;> simp
  | @associated a =>
    refine .inr (hK.main_associate hA hpc rfl rfl ?_ rfl rfl rfl)
    constructor <;> intros <;> rfl
  | associateFailed => cases hC _ hpc
  | created h | createFailed h =>
    refine .inr (hK.same (sameHeap_createAccept h) rfl rfl (createAccept_listen h).2.1 hun
      (.inr (hpc ▸ ?_)))
    constructor <;> simp
  | acceptEx h =>
    refine .inr (hK.same (sameHeap_acceptEx h) rfl rfl (acceptEx_listen h).2.1 hun (.inr (hpc ▸ ?_)))
    constructor <;> simp
  | _ =>
    refine .inr (hK.same ?_ rfl rfl rfl hun (.inr (hpc ▸ ?_)))
    · constructor <;> intros <;> rfl
    · constructor <;> simp

/-! ### The end of a thread that follows NULL -/

theorem io_none_closeClient {g g' : Globals} (h : Iocp.closeClient a g = some g')
    (hc : g.io c = none) : g'.io c = none := by
  obtain ⟨io, hio, -⟩ := closeClient_cases h
  rw [(closeClient_spec h).1.io, hc]
  rintro e
  rw [Option.some.inj e, hc] at hio
  cases hio

theorem io_none_modifyIo {g : Globals} {f : PerIoContext → PerIoContext} (hc : g.io c = none) :
    (g.modifyIo a f).io c = none := by
  rw [io_modifyIo]
  split_ifs
  · rw [hc]
    rfl
  · exact hc

theorem io_none_createAccept {g g' : Globals} {ok : Bool} (h : g.createAccept ok = some g')
    (hc : g.io c = none) : g'.io c = none := by
  obtain ⟨a, io, -, -, rfl⟩ := Globals.createAccept_cases h
  have W : Within g (g.createSocket ok).1 none := within_createSocket ok
  exact io_none_modifyIo ((W.io nofun).trans hc)

theorem io_none_acceptEx {g g' : Globals} {started : Bool} (h : g.acceptEx started = some g')
    (hc : g.io c = none) : g'.io c = none := by
  obtain ⟨a, io, -, -, rfl⟩ := Globals.acceptEx_cases h
  cases started with
  | true => exact io_none_modifyIo hc
  | false => exact hc

/-- A block without an I/O context stays so: nobody allocates it again. -/
theorem LoopWorkerStep.io_none (h : LoopWorkerStep s t w m s') (hm : ∀ x, m ≠ .allocate x)
    (hc : s.g.io c = none) : s'.g.io c = none := by
  cases h with
  | allocated | noMemory => exact absurd rfl (hm _)
  | @added d =>
    have W : Within s.g (ctxtListAddTo d s.g) none := within_ctxtListAddTo d none
    exact (W.io nofun).trans hc
  | created h | createFailed h => exact io_none_createAccept h hc
  | acceptEx h => exact io_none_acceptEx h hc
  | closed _ _ h => exact io_none_closeClient h hc
  | _ => exact hc

theorem Stuck.worker (hS : s.Stuck) (hA : s.Attended) (h : LoopWorkerStep s t w m s')
    (ht : s.threads[t]? = some w) (hC : s.Cleans (.worker t m)) : s'.Stuck := by
  have hlt := (List.getElem?_eq_some_iff.mp ht).1
  have hio := fun c => h.io_none (c := c)
  have hle := h.load_le ht
  have hf := h.frame ht
  rcases hS with ⟨c, hw, hc⟩ | ⟨hload, hr, hr', a, ha, hc⟩
  · have hserve : w.serving = true → w.unread = some c := fun hw' =>
      (exists_serving_iff LoopWorker.serving_of_unread hA.load_le ht hw').mp hw
    have hkeep : ∀ x, w.unread = none → ∃ y ∈ s.threads.set t x, y.unread = some c := by
      intro x hx
      obtain ⟨y, hy, hu⟩ := hw
      rcases eq_or_mem_set ht hy x with rfl | hy
      · cases hx.symm.trans hu
      · exact ⟨y, hy, hu⟩
    left
    cases h with
    | closed => exact ⟨c, hw, hio c nofun hc⟩
    | @associated d =>
      obtain rfl := Option.some.inj (hserve rfl)
      exact ⟨d, ⟨.addTo d, List.mem_set hlt _, rfl⟩, hc⟩
    | @added d =>
      obtain rfl := Option.some.inj (hserve rfl)
      exact ⟨d, ⟨.prepare d, List.mem_set hlt _, rfl⟩, hio d nofun hc⟩
    | prepared hd =>
      obtain rfl := Option.some.inj (hserve rfl)
      cases hd.symm.trans hc
    | associateFailed => cases hC
    | allocated | noMemory => cases hserve rfl
    | _ => exact ⟨c, hkeep _ rfl, hio c nofun hc⟩
  · have hidle : w.serving = false := by
      simpa using List.countP_eq_zero.mp (countP_serving_of_load hload) w (List.mem_of_getElem? ht)
    refine .inr ⟨Nat.le_zero.mp (hload ▸ hle), hf.pc ▸ hr, hf.pc ▸ hr', a, ?_, hio a ?_ hc⟩
    · rwa [MainContext, hf.pc, hf.pCtxtListenSocket]
    · rintro x rfl
      cases h <;> cases hidle

theorem Stuck.main (hS : s.Stuck) (hA : s.Attended) (h : LoopStep s s.pc ans s')
    (hC : s.Cleans (.main ans)) : s'.Stuck := by
  generalize hpc : s.pc = pc at h
  rcases hS with ⟨c, ⟨w, hw, hu⟩, hc⟩ | ⟨hload, hr, hr', a, ha, hc⟩
  · have hserve := w.serving_of_unread hu
    obtain ⟨t, ht⟩ := List.getElem?_of_mem hw
    have hrank : ¬ (pc.rank ≤ 15 ∨ 21 ≤ pc.rank) := by
      intro hr
      rw [hA.not_serving ht (hpc ▸ hr)] at hserve
      cases hserve
    left
    cases h with
    | threadCreated => exact ⟨c, ⟨w, List.mem_append_left _ hw, hu⟩, hc⟩
    | allocated => exact absurd (.inl (by decide)) hrank
    | created h | createFailed h => exact ⟨c, ⟨w, hw, hu⟩, io_none_createAccept h hc⟩
    | acceptEx h => exact ⟨c, ⟨w, hw, hu⟩, io_none_acceptEx h hc⟩
    | cleaned h =>
      have := h.rank_lt
      exact absurd (.inr (Nat.le_of_succ_le this.1)) hrank
    | _ => exact ⟨c, ⟨w, hw, hu⟩, hc⟩
  · have hlisten : (∀ b, pc ≠ .associate b) → s.g.pCtxtListenSocket = some a := by
      intro hne
      exact ha.resolve_left fun e => hne a (hpc ▸ e)
    have hsome : ∀ b io, s.g.pCtxtListenSocket = some b → s.g.io b = some io →
        (∀ b, pc ≠ .associate b) → False := by
      intro b io hb hio hne
      obtain rfl := Option.some.inj (hb.symm.trans (hlisten hne))
      cases hio.symm.trans hc
    rw [hpc] at hr hr'
    have hle := fun ha => h.load_le hpc hA.toStage ha
    cases h with
    | jump h =>
      refine .inr ⟨hload, ?_, ?_, a, .inr (hlisten ?_), hc⟩ <;>
        cases h <;> simp at hr hr' ⊢
    | @associated b =>
      have hnone := hA.noContext (.inl (by rw [hpc]; exact Nat.le_refl 12))
      have hab : b = a := by
        rcases ha with ha | ha
        · exact LoopPc.associate.inj (hpc.symm.trans ha)
        · rw [hnone] at ha
          cases ha
      exact .inr ⟨Nat.le_zero.mp (hload ▸ hle nofun), Nat.le_succ 12, Nat.le_add_right 13 10, a,
        .inr (congrArg some hab), hc⟩
    | associateFailed => cases hC _ hpc
    | created h | createFailed h =>
      obtain ⟨b, io, hb, hio, -⟩ := Globals.createAccept_cases h
      exact (hsome b io hb hio nofun).elim
    | acceptEx h =>
      obtain ⟨b, io, hb, hio, -⟩ := Globals.acceptEx_cases h
      exact (hsome b io hb hio nofun).elim
    | cleaned h =>
      cases h with
      | listenClosed =>
        exact .inr ⟨hload, Nat.le_add_right 12 11, Nat.le_refl 23, a, .inr (hlisten nofun), hc⟩
      | noContext h => cases h.symm.trans (hlisten nofun)
      | completed h hio => exact (hsome _ _ h hio nofun).elim
      | _ => simp at hr'
    | _ =>
      first
        | (simp at hr; done)
        | exact .inr ⟨hload, by simp, by simp, a, .inr (hlisten nofun), hc⟩

/-! ### Along a run -/

/-- A step that leaves the threads and the contexts alone. -/
theorem Stuck.same (hS : s.Stuck) (hio : ∀ c, s.g.io c = none → s'.g.io c = none)
    (hk : s'.g.pCtxtListenSocket = s.g.pCtxtListenSocket) (hth : s'.threads = s.threads)
    (hp : s'.pc = s.pc) (hload : s'.load ≤ s.load) : s'.Stuck := by
  rcases hS with ⟨c, hw, hc⟩ | ⟨hl, hr, hr', a, ha, hc⟩
  · exact .inl ⟨c, hth ▸ hw, hio c hc⟩
  · refine .inr ⟨by omega, hp ▸ hr, hp ▸ hr', a, ?_, hio a hc⟩
    rwa [MainContext, hp, hk]

theorem Stuck.step {b : LoopAction} (hS : s.Stuck) (hA : s.Attended) (hC : s.Cleans b)
    (h : Step s b s') : s'.Stuck := by
  cases h with
  | main h => exact hS.main hA h hC
  | worker ht h => exact hS.worker hA h ht hC
  | event => exact hS.same (fun _ => id) rfl rfl rfl (Nat.le_refl _)
  | @handler i x => cases x <;> exact hS.same (fun _ => id) rfl rfl rfl (Nat.le_refl _)
  | complete ha hio hp =>
    exact hS.same (fun _ => io_none_modifyIo) rfl rfl rfl (load_completed ha hio hp).le

theorem ContextsKept.step {b : LoopAction} (hK : s.ContextsKept) (hA : s.Attended) (hC : s.Cleans b)
    (h : Step s b s') : s'.Stuck ∨ s'.ContextsKept := by
  cases h with
  | main h => exact hK.main hA h hC
  | worker ht h => exact hK.worker hA h ht hC
  | event => exact .inr (hK.same (.refl _) rfl rfl rfl (fun _ => Iff.rfl) (.inl rfl))
  | @handler i x =>
    refine .inr ?_
    cases x with
    | setRestart | setEvent =>
      exact hK.same (.refl _) rfl rfl rfl (fun _ => Iff.rfl) (.inl rfl)
    | setEnd =>
      refine hK.same ?_ rfl rfl rfl (fun _ => Iff.rfl) (.inl rfl)
      constructor <;> intros <;> rfl
  | @complete a =>
    exact .inr (hK.same (sameHeap_modifyIo a _) rfl rfl rfl (fun _ => Iff.rfl) (.inl rfl))

theorem Stuck.not_finished (hS : s.Stuck) (hA : s.Attended) (hpc : s.pc = .rest .finished) :
    False := by
  rcases hS with ⟨c, ⟨w, hw, hu⟩, -⟩ | ⟨-, -, hr, -⟩
  · have := hA.quiet (.inr (by rw [hpc]; decide)) w hw
    rw [this] at hu
    cases hu
  · rw [hpc] at hr
    exact absurd hr (by decide)

end RestartLoop

end SelfStudy.Iocp
