import SelfStudy.Iocp.Frame
import SelfStudy.Lib.Schedule

/-!
# The loop of `CtxtListFree`

`CtxtListFree` with its calls of `CloseClient` and `CtxtListDeleteFrom`, a statement at a time, next to
the kernel, which completes the operations on the contexts. At shutdown `CtxtListDeleteFrom` waits for
the operation of each I/O context before it frees it: the wait is a step that changes nothing.

From the first round to the last `g_pCtxtList` is left on the newest context, which the first round
has freed, so the loop does not keep the list. `Remaining` is what it keeps: the contexts it has not
come to are linked as they were, and when there are none `g_pCtxtList` is NULL.
-/

namespace SelfStudy.Iocp

open Lib

/-! ## The loop -/

/-- `CtxtListFree`, by the statement it is about to execute: in `closeClient` the call of `CloseClient`
on `a`, in `deleteFrom` its call of `CtxtListDeleteFrom`, in `freeIo` the `j`th round there. -/
inductive FreePc
  | enter
  | test (pTemp1 : Option Addr)
  | closeClient (a : Addr) (pTemp2 : Option Addr)
  | deleteFrom (a : Addr) (pTemp2 : Option Addr)
  | freeIo (a : Addr) (pTemp2 : Option Addr) (j : ℕ)
  | returned
  deriving DecidableEq, Repr

/-- The process in `CtxtListFree`. `freed` and `freedIo` list the socket contexts and the I/O contexts
passed to `xfree`, and are not in the source. -/
structure ListFree where
  g : Globals
  pc : FreePc
  freed : List Addr
  freedIo : List (Addr × ℕ)

inductive FreeAction
  | main
  | complete (a : Addr) (j : ℕ)
  deriving DecidableEq, Repr

/-- The kernel completes the operation on the `j`th I/O context of `a`. -/
def Globals.completeIo (a : Addr) (j : ℕ) (g : Globals) : Globals :=
  { g with ctxt := Function.update g.ctxt a { g.ctxt a with
      pIOContext := (g.ctxt a).pIOContext.modify j fun io => { io with pending := false } } }

/-- An operation on the context is outstanding. -/
def Globals.Outstanding (g : Globals) (a : Addr) : Prop :=
  ∃ io ∈ (g.ctxt a).pIOContext, io.pending = true

/-- The sockets that `CloseClient` closes for the context. -/
def Globals.handles (g : Globals) (a : Addr) : List Socket :=
  ((g.io a).bind PerIoContext.socketAccept).toList ++ (g.ctxt a).socket.toList

/-- `n` calls of `CtxtListAddTo`, the first one first. -/
def ctxtListBuild (g : Globals) (adds : List Addr) : Globals :=
  adds.foldl (fun g a => ctxtListAddTo a g) g

namespace ListFree

/-- The call of `CtxtListFree`. -/
def start (g : Globals) : ListFree := ⟨g, .enter, [], []⟩

/-- One step of `CtxtListFree`. It is not enabled where the function would read through a NULL
`pIOContext`. -/
def mainStep (s : ListFree) : Option ListFree :=
  match s.pc with
  | .enter => some { s with g := s.g.enter, pc := .test s.g.pCtxtList }
  | .test none => some { s with g := s.g.leave, pc := .returned }
  | .test (some pTemp1) =>
    some { s with
      g := s.g.touch pTemp1, pc := .closeClient pTemp1 (s.g.ctxt pTemp1).pCtxtBack }
  | .closeClient a pTemp2 =>
    (s.g.io a).map fun io => { s with g := s.g.closeSockets a io, pc := .deleteFrom a pTemp2 }
  | .deleteFrom a pTemp2 =>
    some { s with g := ctxtListRelink a (s.g.enter.touch a), pc := .freeIo a pTemp2 0 }
  | .freeIo a pTemp2 j =>
    ((s.g.ctxt a).pIOContext[j]?).map fun io =>
      if s.g.bEndServer && io.pending then s
      else if j + 1 < (s.g.ctxt a).pIOContext.length then
        { s with freedIo := s.freedIo ++ [(a, j)], pc := .freeIo a pTemp2 (j + 1) }
      else
        { g := (s.g.free a).leave.leave
          pc := .test pTemp2
          freed := s.freed ++ [a]
          freedIo := s.freedIo ++ [(a, j)] }
  | .returned => none

def step (s : ListFree) : FreeAction → Option ListFree
  | .main => s.mainStep
  | .complete a j =>
    ((s.g.ctxt a).pIOContext[j]?).bind fun io =>
      if io.pending then some { s with g := s.g.completeIo a j } else none

/-- `CtxtListFree`, called in any state. -/
def machine : Machine ListFree FreeAction where
  init s := ∃ g, s = start g
  step := step

/-- The loop is in `while (!HasOverlappedIoCompleted(..)) Sleep(0)`. -/
def Waits (s : ListFree) : Prop :=
  ∃ a p j io, s.pc = .freeIo a p j ∧ (s.g.ctxt a).pIOContext[j]? = some io ∧
    (s.g.bEndServer && io.pending) = true

/-! ## One round is one call of `CloseClient` -/

/-- Without a wait the rounds over the I/O contexts from the `j`th on come to the end of
`CtxtListDeleteFrom`. -/
theorem leads_freeIo (s : ListFree) {a : Addr} {p : Option Addr} {j : ℕ}
    (hpc : s.pc = .freeIo a p j) (h : freesIoContexts s.g.bEndServer
      ((s.g.ctxt a).pIOContext.drop j) = true) :
    ∃ t, machine.Leads s t ∧ t.g = (s.g.free a).leave.leave ∧ t.pc = .test p ∧
      t.freed = s.freed ++ [a] := by
  generalize hios : (s.g.ctxt a).pIOContext.drop j = ios at h
  induction ios generalizing s j with
  | nil => cases h
  | cons io ios ih =>
    have hj : (s.g.ctxt a).pIOContext[j]? = some io := by
      rw [← List.head?_drop, hios]; rfl
    have hlen : (s.g.ctxt a).pIOContext.length = j + (ios.length + 1) := by
      have := congrArg List.length hios
      have := (List.getElem?_eq_some_iff.mp hj).1
      rw [List.length_drop, List.length_cons] at *
      omega
    have hio : (s.g.bEndServer && io.pending) = false := by
      cases ios with
      | nil => simpa only [freesIoContexts, Bool.not_eq_true'] using h
      | cons io' ios =>
        simp only [freesIoContexts, Bool.and_eq_true, Bool.not_eq_true'] at h
        exact h.1
    cases ios with
    | nil =>
      have hlast : ¬ j + 1 < (s.g.ctxt a).pIOContext.length := by
        rw [hlen]; simp
      refine ⟨⟨(s.g.free a).leave.leave, .test p, s.freed ++ [a], s.freedIo ++ [(a, j)]⟩,
        .of_step (a := .main) ?_, rfl, rfl, rfl⟩
      show s.mainStep = _
      rw [mainStep, hpc]
      simp only [hj, Option.map_some, hio, if_neg hlast, Bool.false_eq_true, if_false]
    | cons io' ios =>
      have hmore : j + 1 < (s.g.ctxt a).pIOContext.length := by
        rw [hlen, List.length_cons]; omega
      obtain ⟨t, ht, htg, htpc, htf⟩ := ih
        { s with freedIo := s.freedIo ++ [(a, j)], pc := .freeIo a p (j + 1) } rfl (by
          rw [← List.tail_drop, hios]; rfl) (by simpa [freesIoContexts, hio] using h)
      refine ⟨t, .trans (.of_step (a := .main) ?_) ht, htg, htpc, htf⟩
      show s.mainStep = _
      rw [mainStep, hpc]
      simp only [hj, Option.map_some, hio, if_pos hmore, Bool.false_eq_true, if_false]

/-- **One round refines `closeClient`.** -/
theorem leads_closeClient (s : ListFree) {a : Addr} {p : Option Addr} {g' : Globals}
    (hpc : s.pc = .closeClient a p) (h : Iocp.closeClient a s.g = some g') :
    ∃ t, machine.Leads s t ∧ t.g = g' ∧ t.pc = .test p ∧ t.freed = s.freed ++ [a] := by
  obtain ⟨io, hio, hfree, rfl⟩ := closeClient_cases h
  have h₁ : machine.step s .main =
      some { s with g := s.g.closeSockets a io, pc := .deleteFrom a p } := by
    show s.mainStep = _
    rw [mainStep, hpc]
    simp only [hio, Option.map_some]
  obtain ⟨t, ht, htg, htpc, htf⟩ := leads_freeIo
    { s with
      g := ctxtListRelink a ((s.g.closeSockets a io).enter.touch a), pc := .freeIo a p 0 } rfl
    (by simpa using hfree)
  exact ⟨t, .trans (.of_step h₁) (.trans (.of_step (a := .main) rfl) ht), htg, htpc, htf⟩

end ListFree

/-! ## What the statements do -/

section Statements

variable {g g' : Globals} {a b : Addr} {c : Option Addr} {j : ℕ} {io : PerIoContext}

theorem Globals.Keeps.handles (h : Globals.Keeps g g' c) (hb : c ≠ some b) :
    g'.handles b = g.handles b := by
  unfold Globals.handles
  rw [h.io hb, h.socket b hb]

/-- Of a context without newer ones `CtxtListDeleteFrom` reads and writes live neighbours only. -/
theorem ctxtListRelink_fault (hf : (g.ctxt a).pCtxtForward = none)
    (hb : ∀ b, (g.ctxt a).pCtxtBack = some b → g.live b = true) :
    (ctxtListRelink a g).fault = g.fault := by
  unfold ctxtListRelink
  split <;> rename_i hback hforward
  · rfl
  · rw [hf] at hforward; cases hforward
  · simp [hb _ hback]
  · rw [hf] at hforward; cases hforward

@[simp] theorem ctxtListRelink_closed (a : Addr) (g : Globals) :
    (ctxtListRelink a g).closed = g.closed := by
  unfold ctxtListRelink; split <;> rfl

@[simp] theorem ctxtListRelink_closeCalls (a : Addr) (g : Globals) :
    (ctxtListRelink a g).closeCalls = g.closeCalls := by
  unfold ctxtListRelink; split <;> rfl

@[simp] theorem ctxtListRelink_criticalSection (a : Addr) (g : Globals) :
    (ctxtListRelink a g).criticalSection = g.criticalSection := by
  unfold ctxtListRelink; split <;> rfl

theorem closeSockets_closed (hio : g.io a = some io) :
    (g.closeSockets a io).closed = g.closed ++ g.handles a := by
  unfold Globals.handles
  rw [hio, ← List.append_assoc]
  rfl

theorem closeSockets_fault (ha : g.live a = true) : (g.closeSockets a io).fault = g.fault := by
  simp [Globals.closeSockets, Globals.modifyIo, ha]

@[simp] theorem closeSockets_pCtxtBack :
    ((g.closeSockets a io).ctxt b).pCtxtBack = (g.ctxt b).pCtxtBack := by
  simp [Globals.closeSockets, Globals.modifyIo]

@[simp] theorem closeSockets_pCtxtForward :
    ((g.closeSockets a io).ctxt b).pCtxtForward = (g.ctxt b).pCtxtForward := by
  simp [Globals.closeSockets, Globals.modifyIo]

theorem closeSockets_pIOContext : ((g.closeSockets a io).ctxt b).pIOContext =
    if b = a then (g.ctxt b).pIOContext.modifyHead fun io => { io with socketAccept := none }
    else (g.ctxt b).pIOContext := by
  simp [Globals.closeSockets, Globals.modifyIo]

theorem completeIo_proj {β : Type*} (p : PerSocketContext → β)
    (hp : ∀ c ios, p { c with pIOContext := ios } = p c) :
    p ((g.completeIo a j).ctxt b) = p (g.ctxt b) := by
  show p (Function.update g.ctxt a _ b) = _
  rw [Function.update_apply]
  split_ifs with h
  · rw [hp, h]
  · rfl

theorem completeIo_pIOContext : ((g.completeIo a j).ctxt b).pIOContext =
    if b = a then (g.ctxt b).pIOContext.modify j fun io => { io with pending := false }
    else (g.ctxt b).pIOContext := by
  show (Function.update g.ctxt a _ b).pIOContext = _
  rw [Function.update_apply]
  split_ifs with h
  · rw [h]
  · rfl

theorem completeIo_handles : (g.completeIo a j).handles b = g.handles b := by
  unfold Globals.handles Globals.io
  rw [completeIo_proj PerSocketContext.socket fun _ _ => rfl, completeIo_pIOContext]
  split_ifs
  · cases (g.ctxt b).pIOContext <;> cases j <;> rfl
  · rfl

end Statements

/-! ## The invariant of the loop -/

/-- The contexts of `l` are live, each with one I/O context, and linked both ways; without any
`g_pCtxtList` is NULL. -/
structure Remaining (g : Globals) (l : List Addr) : Prop where
  nodup : l.Nodup
  live : ∀ a ∈ l, g.live a = true
  seg : Seg (fun a => (g.ctxt a).pCtxtBack) (fun a => (g.ctxt a).pCtxtForward) none l none
  io : ∀ a ∈ l, ∃ io, (g.ctxt a).pIOContext = [io]
  null : l = [] → g.pCtxtList = none

namespace Remaining

variable {g g' : Globals} {l : List Addr} {a : Addr}

theorem congr (h : Remaining g l) (hlive : g'.live = g.live)
    (hback : ∀ b, (g'.ctxt b).pCtxtBack = (g.ctxt b).pCtxtBack)
    (hforward : ∀ b, (g'.ctxt b).pCtxtForward = (g.ctxt b).pCtxtForward)
    (hio : ∀ b, (g'.ctxt b).pIOContext.length = (g.ctxt b).pIOContext.length)
    (hlist : g'.pCtxtList = g.pCtxtList) : Remaining g' l where
  nodup := h.nodup
  live b hb := by rw [hlive, h.live b hb]
  seg := h.seg.congr (fun b _ => hback b) fun b _ => hforward b
  io b hb := by
    obtain ⟨io, hg⟩ := h.io b hb
    rw [← List.length_eq_one_iff, hio, hg]
    rfl
  null hl := hlist.trans (h.null hl)

/-- `CtxtListAddTo` of one more context. -/
theorem addTo (h : Remaining g l) (hhead : g.pCtxtList = l.head?) (ha : a ∉ l)
    (hlive : g.live a = true) (hio : ∃ io, (g.ctxt a).pIOContext = [io]) :
    Remaining (ctxtListAddTo a g) (a :: l) where
  nodup := List.nodup_cons.mpr ⟨ha, h.nodup⟩
  live b hb := by
    rcases List.mem_cons.mp hb with rfl | hb
    · simpa [ctxtListAddTo] using hlive
    · simpa [ctxtListAddTo] using h.live b hb
  seg := ctxtListAddTo_seg h.nodup ha hhead h.seg
  io b hb := by
    rcases List.mem_cons.mp hb with rfl | hb
    · simpa [ctxtListAddTo] using hio
    · simpa [ctxtListAddTo] using h.io b hb
  null hl := by cases hl

/-- The links of the context that the loop is at: there is no newer one left. -/
theorem links (h : Remaining g (a :: l)) :
    (g.ctxt a).pCtxtBack = l.head? ∧ (g.ctxt a).pCtxtForward = none := by
  obtain ⟨hf, hb, -⟩ := h.seg
  exact ⟨hb.trans (Option.or_none ..), hf⟩

/-- A deletion anywhere in the list. -/
theorem erase {l₁ l₂ : List Addr} (h : Remaining g (l₁ ++ a :: l₂)) :
    Remaining (ctxtListRelink a g) (l₁ ++ l₂) where
  nodup := h.nodup.sublist (by simp)
  live b hb := by
    rw [ctxtListRelink_live]
    exact h.live b (List.mem_append.mpr ((List.mem_append.mp hb).imp_right (List.mem_cons_of_mem a)))
  seg := ctxtListRelink_seg h.nodup h.seg
  io b hb := by
    rw [ctxtListRelink_pIOContext]
    exact h.io b (List.mem_append.mpr ((List.mem_append.mp hb).imp_right (List.mem_cons_of_mem a)))
  null hl := by
    obtain ⟨rfl, rfl⟩ := List.append_eq_nil_iff.mp hl
    rw [List.nil_append] at h
    rw [ctxtListRelink_pCtxtList, h.links.1, h.links.2]
    exact if_pos rfl

/-- **One round of the loop.** `g_pCtxtList` stays behind on the newest context until the last deletion
makes it NULL. -/
theorem relink (h : Remaining g (a :: l)) : Remaining (ctxtListRelink a g) l := by
  have h' : Remaining g ([] ++ a :: l) := h
  exact h'.erase

/-- A context that is not in the list is freed. -/
theorem free (h : Remaining g l) (ha : a ∉ l) : Remaining (g.free a) l where
  nodup := h.nodup
  live b hb := by
    have hne : b ≠ a := fun e => ha (e ▸ hb)
    exact (Function.update_of_ne hne ..).trans (h.live b hb)
  seg := h.seg
  io := h.io
  null := h.null

theorem relink_fault (h : Remaining g (a :: l)) : (ctxtListRelink a g).fault = g.fault := by
  refine ctxtListRelink_fault h.links.2 fun b hb => h.live b ?_
  rw [h.links.1] at hb
  exact List.mem_cons_of_mem a (List.mem_of_mem_head? hb)

/-- A completion leaves the links and the number of I/O contexts alone. -/
theorem completeIo (h : Remaining g l) (a : Addr) (j : ℕ) :
    Remaining (g.completeIo a j) l := by
  refine h.congr rfl (fun b => ?_) (fun b => ?_) (fun b => ?_) rfl
  · exact completeIo_proj PerSocketContext.pCtxtBack fun _ _ => rfl
  · exact completeIo_proj PerSocketContext.pCtxtForward fun _ _ => rfl
  · rw [completeIo_pIOContext]
    split_ifs
    · exact List.length_modify ..
    · rfl

end Remaining

/-- **The list is built.** -/
theorem ctxtListBuild_remaining {g : Globals} {l adds : List Addr} (h : Remaining g l)
    (hhead : g.pCtxtList = l.head?) (hn : (adds.reverse ++ l).Nodup)
    (hctxt : ∀ a ∈ adds, g.live a = true ∧ ∃ io, (g.ctxt a).pIOContext = [io]) :
    Remaining (ctxtListBuild g adds) (adds.reverse ++ l) ∧
      (ctxtListBuild g adds).pCtxtList = (adds.reverse ++ l).head? := by
  induction adds generalizing g l with
  | nil => exact ⟨h, hhead⟩
  | cons a adds ih =>
    have hrev : (a :: adds).reverse ++ l = adds.reverse ++ a :: l := by simp
    rw [hrev] at hn ⊢
    have ha : a ∉ l := by
      have := (List.nodup_append.mp hn).2.1
      exact (List.nodup_cons.mp this).1
    obtain ⟨hlive, hio⟩ := hctxt a List.mem_cons_self
    refine ih (h.addTo hhead ha hlive hio) (by simp [ctxtListAddTo]) hn fun b hb => ?_
    simpa [ctxtListAddTo] using hctxt b (List.mem_cons_of_mem a hb)

namespace ListFree

/-- The state against the globals `g₀` of the call: `CloseClient` has closed the sockets of `closing`,
the contexts of `done` are freed, and those of `rest` are as they were. `depth` counts the recursive
entries of the critical section. -/
structure Done (g₀ : Globals) (s : ListFree) (closing done rest : List Addr) (depth : ℕ) :
    Prop where
  same : ∀ a ∈ rest, s.g.handles a = g₀.handles a ∧ (s.g.ctxt a).serial = (g₀.ctxt a).serial
  closeCalls : s.g.closeCalls = g₀.closeCalls ++ closing.map fun a => (g₀.ctxt a).serial
  closed : s.g.closed = g₀.closed ++ closing.flatMap g₀.handles
  freed : s.freed = done
  freedIo : s.freedIo = done.map fun a => (a, 0)
  live : ∀ b, s.g.live b = true ↔ g₀.live b = true ∧ b ∉ done
  criticalSection : s.g.criticalSection = g₀.criticalSection + depth
  fault : s.g.fault = g₀.fault

/-- Where the loop is in the list `l`, and what it has done. -/
inductive At (g₀ : Globals) (l : List Addr) (s : ListFree) : Prop
  | enter (hpc : s.pc = .enter) (hd : Done g₀ s [] [] l 0) (hr : Remaining s.g l)
    (hhead : s.g.pCtxtList = l.head?)
  | test {done rest : List Addr} (hl : l = done ++ rest) (hpc : s.pc = .test rest.head?)
    (hd : Done g₀ s done done rest 1) (hr : Remaining s.g rest)
  | closeClient {done : List Addr} {a : Addr} {rest : List Addr} (hl : l = done ++ a :: rest)
    (hpc : s.pc = .closeClient a rest.head?) (hd : Done g₀ s done done (a :: rest) 1)
    (hr : Remaining s.g (a :: rest))
  | deleteFrom {done : List Addr} {a : Addr} {rest : List Addr} (hl : l = done ++ a :: rest)
    (hpc : s.pc = .deleteFrom a rest.head?) (hd : Done g₀ s (done ++ [a]) done rest 2)
    (hr : Remaining s.g (a :: rest))
  | freeIo {done : List Addr} {a : Addr} {rest : List Addr} (hl : l = done ++ a :: rest)
    (hpc : s.pc = .freeIo a rest.head? 0) (hd : Done g₀ s (done ++ [a]) done rest 3)
    (hr : Remaining s.g rest) (ha : a ∉ rest) (hio : ∃ io, (s.g.ctxt a).pIOContext = [io])
  | returned (hpc : s.pc = .returned) (hd : Done g₀ s l l [] 0) (hnull : s.g.pCtxtList = none)

variable {g₀ : Globals} {l : List Addr} {s s' : ListFree}

/-- A step that closes and frees nothing. -/
theorem Done.congr {closing done rest : List Addr} {depth depth' : ℕ}
    (h : Done g₀ s closing done rest depth)
    (hsame : ∀ a ∈ rest, s'.g.handles a = s.g.handles a ∧
      (s'.g.ctxt a).serial = (s.g.ctxt a).serial)
    (hcalls : s'.g.closeCalls = s.g.closeCalls) (hclosed : s'.g.closed = s.g.closed)
    (hfreed : s'.freed = s.freed) (hfreedIo : s'.freedIo = s.freedIo)
    (hlive : s'.g.live = s.g.live)
    (hcs : s'.g.criticalSection + depth = s.g.criticalSection + depth')
    (hfault : s'.g.fault = s.g.fault) : Done g₀ s' closing done rest depth' where
  same a ha := ⟨(hsame a ha).1.trans (h.same a ha).1, (hsame a ha).2.trans (h.same a ha).2⟩
  closeCalls := hcalls.trans h.closeCalls
  closed := hclosed.trans h.closed
  freed := hfreed.trans h.freed
  freedIo := hfreedIo.trans h.freedIo
  live b := by rw [hlive, h.live b]
  criticalSection := by
    have := h.criticalSection
    omega
  fault := hfault.trans h.fault

/-- `CloseClient` has closed the sockets of the context. -/
theorem At.closeSockets {done rest : List Addr} {a : Addr} {io : PerIoContext}
    (hl : l = done ++ a :: rest) (hd : Done g₀ s done done (a :: rest) 1)
    (hr : Remaining s.g (a :: rest)) (hhead : s.g.io a = some io) :
    At g₀ l { s with g := s.g.closeSockets a io, pc := .deleteFrom a rest.head? } := by
  have ha : ∀ b ∈ rest, some a ≠ some b := by
    intro b hb he
    exact (List.nodup_cons.mp hr.nodup).1 (Option.some.inj he ▸ hb)
  have hK := Iocp.keeps_closeSockets (g := s.g) a io
  refine .deleteFrom hl rfl ⟨fun b hb => ?_, ?_, ?_, hd.freed, hd.freedIo, hd.live, ?_, ?_⟩ ?_
  · obtain ⟨hh, hserial⟩ := hd.same b (List.mem_cons_of_mem a hb)
    exact ⟨(hK.handles (ha b hb)).trans hh, (hK.serialAt b).trans hserial⟩
  · show s.g.closeCalls ++ [(s.g.ctxt a).serial] = _
    rw [hd.closeCalls, (hd.same a List.mem_cons_self).2, List.append_assoc, List.map_append]
    rfl
  · rw [closeSockets_closed hhead, hd.closed, (hd.same a List.mem_cons_self).1,
      List.flatMap_append, List.append_assoc, List.flatMap_singleton]
  · show s.g.criticalSection + 1 = _
    rw [hd.criticalSection]
  · rw [closeSockets_fault (hr.live a List.mem_cons_self), hd.fault]
  · refine hr.congr rfl (fun b => closeSockets_pCtxtBack) (fun b => closeSockets_pCtxtForward)
      (fun b => ?_) rfl
    rw [closeSockets_pIOContext]
    split_ifs
    · exact List.length_modifyHead
    · rfl

/-- `CtxtListDeleteFrom` has taken the context out of the list. -/
theorem At.relink {done rest : List Addr} {a : Addr} (hl : l = done ++ a :: rest)
    (hd : Done g₀ s (done ++ [a]) done rest 2) (hr : Remaining s.g (a :: rest)) :
    At g₀ l { s with g := ctxtListRelink a (s.g.enter.touch a), pc := .freeIo a rest.head? 0 } := by
  have hr' : Remaining (s.g.enter.touch a) (a :: rest) :=
    hr.congr rfl (fun _ => rfl) (fun _ => rfl) (fun _ => rfl) rfl
  have hK := (within_ctxtListRelink (g := s.g.enter.touch a) a none).toKeeps
  refine .freeIo hl rfl ?_ hr'.relink (List.nodup_cons.mp hr.nodup).1 ?_
  · refine hd.congr (fun b _ => ⟨hK.handles nofun, hK.serialAt b⟩) ?_ ?_ rfl rfl ?_ ?_ ?_
    · exact ctxtListRelink_closeCalls ..
    · exact ctxtListRelink_closed ..
    · exact ctxtListRelink_live ..
    · show (ctxtListRelink a _).criticalSection + 2 = _
      rw [ctxtListRelink_criticalSection]
      rfl
    · show (ctxtListRelink a _).fault = _
      rw [hr'.relink_fault]
      simp [hr.live a]
  · show ∃ io, ((ctxtListRelink a _).ctxt a).pIOContext = _
    rw [ctxtListRelink_pIOContext]
    exact hr.io a List.mem_cons_self

/-- The context and its I/O context are freed, and both functions have left the critical section. -/
theorem At.free {done rest : List Addr} {a : Addr} (hl : l = done ++ a :: rest)
    (hd : Done g₀ s (done ++ [a]) done rest 3) (hr : Remaining s.g rest) (ha : a ∉ rest) :
    At g₀ l
      { g := (s.g.free a).leave.leave
        pc := .test rest.head?
        freed := s.freed ++ [a]
        freedIo := s.freedIo ++ [(a, 0)] } := by
  refine .test (show l = (done ++ [a]) ++ rest by simp [hl]) rfl
    ⟨hd.same, hd.closeCalls, hd.closed, ?_, ?_, fun b => ?_, ?_, hd.fault⟩ ?_
  · rw [hd.freed]
  · rw [hd.freedIo, List.map_append]
    rfl
  · show Function.update s.g.live a false b = true ↔ _
    by_cases hb : b = a
    · simp [hb]
    · simp [hb, hd.live b]
  · show s.g.criticalSection - 1 - 1 = _
    have := hd.criticalSection
    omega
  · refine ⟨hr.nodup, fun b hb => ?_, hr.seg, hr.io, hr.null⟩
    have hba : b ≠ a := fun he => ha (he ▸ hb)
    show Function.update s.g.live a false b = true
    rw [Function.update_of_ne hba, hr.live b hb]

/-- **One statement of the loop.** -/
theorem At.mainStep (h : At g₀ l s) (hs : s.mainStep = some s') : At g₀ l s' := by
  cases h with
  | enter hpc hd hr hhead =>
    rw [ListFree.mainStep, hpc] at hs
    obtain rfl := Option.some.inj hs
    refine .test (show l = [] ++ l from rfl) (congrArg FreePc.test hhead) ?_ ?_
    · exact hd.congr (fun a _ => ⟨rfl, rfl⟩) rfl rfl rfl rfl rfl rfl rfl
    · exact hr.congr rfl (fun _ => rfl) (fun _ => rfl) (fun _ => rfl) rfl
  | @test done rest hl hpc hd hr =>
    cases rest with
    | nil =>
      rw [ListFree.mainStep, hpc] at hs
      obtain rfl := Option.some.inj hs
      rw [List.append_nil] at hl
      subst hl
      refine .returned rfl (hd.congr (fun a _ => ⟨rfl, rfl⟩) rfl rfl rfl rfl rfl ?_ rfl) (hr.null rfl)
      have := hd.criticalSection
      show s.g.criticalSection - 1 + 1 = s.g.criticalSection + 0
      omega
    | cons a rest =>
      rw [ListFree.mainStep, hpc] at hs
      obtain rfl := Option.some.inj hs
      refine .closeClient hl (congrArg (FreePc.closeClient a) hr.links.1) ?_ ?_
      · refine hd.congr (fun a _ => ⟨rfl, rfl⟩) rfl rfl rfl rfl rfl rfl ?_
        simp [hr.live a]
      · exact hr.congr rfl (fun _ => rfl) (fun _ => rfl) (fun _ => rfl) rfl
  | @closeClient done a rest hl hpc hd hr =>
    obtain ⟨io, hio⟩ := hr.io a List.mem_cons_self
    have hhead : s.g.io a = some io := by
      unfold Globals.io
      rw [hio]
      rfl
    rw [ListFree.mainStep, hpc] at hs
    simp only [hhead, Option.map_some, Option.some.injEq] at hs
    subst hs
    exact closeSockets hl hd hr hhead
  | deleteFrom hl hpc hd hr =>
    rw [ListFree.mainStep, hpc] at hs
    obtain rfl := Option.some.inj hs
    exact relink hl hd hr
  | freeIo hl hpc hd hr ha hio =>
    obtain ⟨io, hio⟩ := hio
    rw [ListFree.mainStep, hpc] at hs
    simp only [hio, List.getElem?_cons_zero, Option.map_some, Option.some.injEq,
      List.length_singleton, Nat.lt_irrefl, Nat.zero_add, if_false] at hs
    split_ifs at hs
    · subst hs
      exact .freeIo hl hpc hd hr ha ⟨io, hio⟩
    · subst hs
      exact free hl hd hr ha
  | returned hpc hd hnull =>
    rw [ListFree.mainStep, hpc] at hs
    cases hs

theorem step_complete {a : Addr} {j : ℕ} (h : s.step (.complete a j) = some s') :
    s' = { s with g := s.g.completeIo a j } := by
  obtain ⟨io, -, h⟩ := Option.bind_eq_some_iff.mp h
  obtain ⟨-, h⟩ := Option.ite_none_right_eq_some.mp h
  exact (Option.some.inj h).symm

theorem Done.completeIo {closing done rest : List Addr} {depth : ℕ}
    (h : Done g₀ s closing done rest depth) (a : Addr) (j : ℕ) :
    Done g₀ { s with g := s.g.completeIo a j } closing done rest depth := by
  refine h.congr (fun b _ => ⟨completeIo_handles, ?_⟩) rfl rfl rfl rfl rfl rfl rfl
  exact completeIo_proj PerSocketContext.serial fun _ _ => rfl

/-- The kernel does not disturb the loop. -/
theorem At.complete (h : At g₀ l s) (a : Addr) (j : ℕ) :
    At g₀ l { s with g := s.g.completeIo a j } := by
  cases h with
  | enter hpc hd hr hhead => exact .enter hpc (hd.completeIo a j) (hr.completeIo a j) hhead
  | test hl hpc hd hr => exact .test hl hpc (hd.completeIo a j) (hr.completeIo a j)
  | closeClient hl hpc hd hr => exact .closeClient hl hpc (hd.completeIo a j) (hr.completeIo a j)
  | deleteFrom hl hpc hd hr => exact .deleteFrom hl hpc (hd.completeIo a j) (hr.completeIo a j)
  | @freeIo done b rest hl hpc hd hr hb hio =>
    refine .freeIo hl hpc (hd.completeIo a j) (hr.completeIo a j) hb ?_
    obtain ⟨io, hio⟩ := hio
    rw [← List.length_eq_one_iff, completeIo_pIOContext, hio]
    split_ifs
    · exact List.length_modify ..
    · rfl
  | returned hpc hd hnull => exact .returned hpc (hd.completeIo a j) hnull

/-- **The invariant of the loop.** -/
theorem At.step {x : FreeAction} (h : At g₀ l s) (hs : s.step x = some s') : At g₀ l s' := by
  cases x with
  | main => exact h.mainStep hs
  | complete a j =>
    rw [step_complete hs]
    exact h.complete a j

/-! ## Termination -/

def FreePc.rank : FreePc → ℕ
  | .enter => 4
  | .test _ => 3
  | .closeClient .. => 2
  | .deleteFrom .. => 1
  | .freeIo .. => 0
  | .returned => 0

/-- The statements still to come, for a list of `n` contexts. -/
def left (n : ℕ) (s : ListFree) : ℕ := 4 * (n - s.freed.length) + FreePc.rank s.pc

/-- A statement other than a wait is progress. -/
theorem At.left_lt (h : At g₀ l s) (hs : s.mainStep = some s') :
    left l.length s' < left l.length s ∨ s' = s ∧ s.Waits := by
  cases h with
  | enter hpc hd hr hhead =>
    rw [ListFree.mainStep, hpc] at hs
    obtain rfl := Option.some.inj hs
    left
    simp [left, FreePc.rank, hpc]
  | @test done rest hl hpc hd hr =>
    left
    cases rest with
    | nil =>
      rw [ListFree.mainStep, hpc] at hs
      obtain rfl := Option.some.inj hs
      simp [left, FreePc.rank, hpc]
    | cons a rest =>
      rw [ListFree.mainStep, hpc] at hs
      obtain rfl := Option.some.inj hs
      simp [left, FreePc.rank, hpc]
  | @closeClient done a rest hl hpc hd hr =>
    rw [ListFree.mainStep, hpc] at hs
    obtain ⟨io, -, rfl⟩ := Option.map_eq_some_iff.mp hs
    left
    simp [left, FreePc.rank, hpc]
  | deleteFrom hl hpc hd hr =>
    rw [ListFree.mainStep, hpc] at hs
    obtain rfl := Option.some.inj hs
    left
    simp [left, FreePc.rank, hpc]
  | @freeIo done a rest hl hpc hd hr ha hio =>
    obtain ⟨io, hio⟩ := hio
    rw [ListFree.mainStep, hpc] at hs
    simp only [hio, List.getElem?_cons_zero, Option.map_some, Option.some.injEq,
      List.length_singleton, Nat.lt_irrefl, Nat.zero_add, if_false] at hs
    split_ifs at hs with hp
    · exact .inr ⟨hs.symm, a, _, 0, io, hpc, by rw [hio]; rfl, hp⟩
    · subst hs
      left
      simp only [left, hpc, FreePc.rank, hd.freed, hl, List.length_append, List.length_cons,
        List.length_nil]
      omega
  | returned hpc hd hnull =>
    rw [ListFree.mainStep, hpc] at hs
    cases hs

/-- Until it returns the function has a next statement. -/
theorem At.enabled (h : At g₀ l s) (hpc' : s.pc ≠ .returned) : ∃ s', s.mainStep = some s' := by
  unfold ListFree.mainStep
  cases h with
  | enter hpc | deleteFrom hl hpc =>
    rw [hpc]
    exact ⟨_, rfl⟩
  | @test done rest hl hpc =>
    rw [hpc]
    cases rest <;> exact ⟨_, rfl⟩
  | @closeClient done a rest hl hpc hd hr =>
    obtain ⟨io, hio⟩ := hr.io a List.mem_cons_self
    rw [hpc]
    simp [Globals.io, hio]
  | freeIo hl hpc hd hr ha hio =>
    obtain ⟨io, hio⟩ := hio
    rw [hpc]
    simp [hio]
  | returned hpc => exact absurd hpc hpc'

/-- While the loop waits for an operation, `CloseClient` has closed its socket. -/
theorem At.closed_of_waits (h : At g₀ l s) {a : Addr} {p : Option Addr} {j : ℕ}
    (hpc' : s.pc = .freeIo a p j) : a ∈ l ∧ ∀ sd ∈ (g₀.ctxt a).socket, sd ∈ s.g.closed := by
  cases h with
  | freeIo hl hpc hd =>
    rw [hpc] at hpc'
    obtain ⟨rfl, -, -⟩ := FreePc.freeIo.inj hpc'
    refine ⟨by simp [hl], fun sd hsd => ?_⟩
    rw [hd.closed]
    simp [Globals.handles, Option.mem_def.mp hsd]
  | enter hpc | test hl hpc | closeClient hl hpc | deleteFrom hl hpc | returned hpc =>
    rw [hpc] at hpc'
    cases hpc'

/-- A completion starts no wait. -/
theorem Waits.of_complete {a : Addr} {j : ℕ}
    (h : Waits { s with g := s.g.completeIo a j }) : s.Waits := by
  obtain ⟨b, p, i, io, hpc, hget, hp⟩ := h
  rw [completeIo_pIOContext] at hget
  split_ifs at hget with hb
  · rw [List.getElem?_modify] at hget
    obtain ⟨io', hio, rfl⟩ := Option.map_eq_some_iff.mp hget
    refine ⟨b, p, i, io', hpc, hio, ?_⟩
    split_ifs at hp with hi
    · simp at hp
    · exact hp
  · exact ⟨b, p, i, io, hpc, hget, hp⟩

/-- A step is progress, or it leaves the loop at its statement and starts no wait. -/
theorem At.step_left {x : FreeAction} (h : At g₀ l s) (hs : s.step x = some s') :
    left l.length s' < left l.length s ∨
      left l.length s' = left l.length s ∧ s'.pc = s.pc ∧ (s'.Waits → s.Waits) := by
  cases x with
  | main =>
    rcases h.left_lt hs with hlt | ⟨rfl, -⟩
    · exact .inl hlt
    · exact .inr ⟨rfl, rfl, id⟩
  | complete a j =>
    rw [step_complete hs]
    exact .inr ⟨rfl, rfl, Waits.of_complete⟩

/-- **`CtxtListFree` returns**, if its thread goes on and every operation on a context of the list is
completed once the socket of the context has been passed to closesocket. -/
theorem At.returns (h : At g₀ l s) {sched : ℕ → FreeAction} (hfair : Machine.Fair (· = .main) sched)
    (hkernel : ∀ a ∈ l, ∀ t, (∀ sd ∈ (g₀.ctxt a).socket, sd ∈ (machine.trace s sched t).g.closed) →
      ∃ t' ≥ t, ¬ (machine.trace s sched t').g.Outstanding a) :
    ∃ t, (machine.trace s sched t).pc = .returned := by
  have hAt : ∀ t, At g₀ l (machine.trace s sched t) :=
    Machine.trace_invariant h fun s x s' h hs => h.step hs
  refine Machine.reaches_of_fair (G := fun s => s.pc = .returned) (W := Waits) (left l.length)
    (fun t s' hs => ?_) (fun t hmain hG hW => ?_) hfair fun t hW => ?_
  · exact ((hAt t).step_left hs).imp id fun h => ⟨h.1, h.2.2⟩
  · obtain ⟨s', hs⟩ := (hAt t).enabled hG
    have hstep : machine.step (machine.trace s sched t) (sched t) = some s' := by rwa [hmain]
    rw [Machine.trace_succ hstep]
    exact ((hAt t).left_lt hs).resolve_right fun h => hW h.2
  · obtain ⟨a, p, j, io, hpc, hget, hp⟩ := hW
    obtain ⟨ha, hclosed⟩ := (hAt t).closed_of_waits hpc
    obtain ⟨t', ht', hout⟩ := hkernel a ha t hclosed
    -- until then the loop is at its wait, or it has gone on
    have hrel := Machine.trace_relation (M := machine)
      (R := fun x y => left l.length y < left l.length x ∨
        left l.length y = left l.length x ∧ y.pc = x.pc)
      (fun x => .inr ⟨rfl, rfl⟩) (fun x y z hxy hyz => by
        rcases hxy with hxy | ⟨hxy, hxy'⟩ <;> rcases hyz with hyz | ⟨hyz, hyz'⟩
        · exact .inl (hyz.trans hxy)
        · exact .inl (hyz ▸ hxy)
        · exact .inl (hxy ▸ hyz)
        · exact .inr ⟨hyz.trans hxy, hyz'.trans hxy'⟩)
      (fun t s' hs => ((hAt t).step_left hs).imp id fun h => ⟨h.1, h.2.1⟩) ht'
    refine ⟨t', ht', hrel.imp id ?_⟩
    rintro ⟨-, hpc'⟩ ⟨a', p', j', io', hpc'', hget', hp'⟩
    rw [hpc', hpc] at hpc''
    obtain ⟨rfl, -, -⟩ := FreePc.freeIo.inj hpc''
    exact hout ⟨io', List.mem_of_getElem? hget', ((Bool.and_eq_true _ _).mp hp').2⟩

/-! ## A kernel that completes every operation -/

theorem mainStep_length (hs : s.mainStep = some s') (b : Addr) :
    (s'.g.ctxt b).pIOContext.length = (s.g.ctxt b).pIOContext.length := by
  unfold ListFree.mainStep at hs
  split at hs
  · exact Option.some.inj hs ▸ rfl
  · exact Option.some.inj hs ▸ rfl
  · exact Option.some.inj hs ▸ rfl
  · obtain ⟨io, -, rfl⟩ := Option.map_eq_some_iff.mp hs
    rw [closeSockets_pIOContext]
    split_ifs
    · exact List.length_modifyHead
    · rfl
  · obtain rfl := Option.some.inj hs
    rw [ctxtListRelink_pIOContext]
    rfl
  · obtain ⟨io, -, rfl⟩ := Option.map_eq_some_iff.mp hs
    split_ifs <;> rfl
  · cases hs

theorem step_length {x : FreeAction} (hs : s.step x = some s') (b : Addr) :
    (s'.g.ctxt b).pIOContext.length = (s.g.ctxt b).pIOContext.length := by
  cases x with
  | main => exact mainStep_length hs b
  | complete a j =>
    rw [step_complete hs, completeIo_pIOContext]
    split_ifs
    · exact List.length_modify ..
    · rfl

/-- Where the completion of the only I/O context of `a` is offered again and again, no operation on it
stays outstanding. -/
theorem not_outstanding_of_fair {a : Addr} (ha : (s.g.ctxt a).pIOContext.length = 1)
    {sched : ℕ → FreeAction} (h : Machine.Fair (· = .complete a 0) sched) (t : ℕ) :
    ∃ t' ≥ t, ¬ (machine.trace s sched t').g.Outstanding a := by
  obtain ⟨t', ht', hcomplete⟩ := h t
  have hlen : ((machine.trace s sched t').g.ctxt a).pIOContext.length = 1 := by
    refine Machine.trace_invariant (P := fun x : ListFree => (x.g.ctxt a).pIOContext.length = 1) ha
      (fun x y x' hx hs => ?_) t'
    exact (step_length hs a).trans hx
  obtain ⟨io, hio⟩ := List.length_eq_one_iff.mp hlen
  refine ⟨t' + 1, by omega, ?_⟩
  show ¬ ((machine.step _ (sched t')).getD _).g.Outstanding a
  rw [hcomplete]
  generalize machine.trace s sched t' = s at hio ⊢
  by_cases hp : io.pending = true
  · have hs : machine.step s (.complete a 0) = some { s with g := s.g.completeIo a 0 } := by
      simp [machine, step, hio, hp]
    rw [hs]
    rintro ⟨io', hmem, hp'⟩
    rw [Option.getD_some, completeIo_pIOContext, if_pos rfl, hio] at hmem
    obtain rfl := List.mem_singleton.mp hmem
    cases hp'
  · have hs : machine.step s (.complete a 0) = none := by
      simp [machine, step, hio, hp]
    rw [hs]
    rintro ⟨io', hmem, hp'⟩
    rw [Option.getD_none, hio] at hmem
    obtain rfl := List.mem_singleton.mp hmem
    exact hp hp'

/-! ## The call -/

/-- What the call is to bring about for the list `l` in `g₀`: `CloseClient` has run on each context
once, its sockets are closed, it and its I/O context are freed, and `g_pCtxtList` is NULL. -/
structure Freed (g₀ : Globals) (l : List Addr) (s : ListFree) : Prop where
  returned : s.pc = .returned
  closeCalls : s.g.closeCalls = g₀.closeCalls ++ l.map fun a => (g₀.ctxt a).serial
  closed : s.g.closed = g₀.closed ++ l.flatMap g₀.handles
  freed : s.freed = l
  freedIo : s.freedIo = l.map fun a => (a, 0)
  live : ∀ b, s.g.live b = true ↔ g₀.live b = true ∧ b ∉ l
  null : s.g.pCtxtList = none
  criticalSection : s.g.criticalSection = g₀.criticalSection

theorem At.fault (h : At g₀ l s) : s.g.fault = g₀.fault := by
  cases h with
  | enter hpc hd | test hl hpc hd | closeClient hl hpc hd | deleteFrom hl hpc hd
  | freeIo hl hpc hd | returned hpc hd => exact hd.fault

theorem At.all_freed (h : At g₀ l s) (hpc' : s.pc = .returned) : Freed g₀ l s := by
  cases h with
  | returned hpc hd hnull =>
    exact ⟨hpc, hd.closeCalls, hd.closed, hd.freed, hd.freedIo, hd.live, hnull, hd.criticalSection⟩
  | enter hpc | test hl hpc | closeClient hl hpc | deleteFrom hl hpc | freeIo hl hpc =>
    rw [hpc] at hpc'
    cases hpc'

theorem start_at (hr : Remaining g₀ l) (hhead : g₀.pCtxtList = l.head?) :
    At g₀ l (start g₀) := by
  refine .enter rfl ⟨fun _ _ => ⟨rfl, rfl⟩, ?_, ?_, rfl, rfl, fun b => ?_, rfl, rfl⟩ hr hhead
  · exact (List.append_nil _).symm
  · exact (List.append_nil _).symm
  · simp [start]

end ListFree

theorem ctxtListAddTo_fault {g : Globals} {a : Addr} (ha : g.live a = true)
    (hhead : ∀ b, g.pCtxtList = some b → g.live b = true) :
    (ctxtListAddTo a g).fault = g.fault := by
  unfold ctxtListAddTo ctxtListLink
  split <;> rename_i h
  · simp [ha]
  · simp [ha, hhead _ h]

/-- Building the list uses live contexts only. -/
theorem ctxtListBuild_fault {g : Globals} {adds : List Addr}
    (hhead : ∀ b, g.pCtxtList = some b → g.live b = true) (hlive : ∀ a ∈ adds, g.live a = true) :
    (ctxtListBuild g adds).fault = g.fault := by
  induction adds generalizing g with
  | nil => rfl
  | cons a adds ih =>
    have ha := hlive a List.mem_cons_self
    refine (ih (fun b hb => ?_) fun b hb => ?_).trans (ctxtListAddTo_fault ha hhead)
    · obtain rfl : a = b := by simpa [ctxtListAddTo] using hb
      simpa [ctxtListAddTo] using ha
    · simpa [ctxtListAddTo] using hlive b (List.mem_cons_of_mem a hb)

/-- **`CtxtListFree` frees the list.** The contexts `adds`, distinct and live, each with one I/O
context, are put into an empty list one after the other. Then `CtxtListFree` uses no freed context,
whatever the kernel completes meanwhile; and if its thread goes on, and the operation on each of the
contexts completes at some time after its socket has been closed, it returns with all of them freed. -/
theorem ctxtListFree_frees (g : Globals) (adds : List Addr) (hempty : g.pCtxtList = none)
    (hfault : g.fault = false) (hn : adds.Nodup)
    (hctxt : ∀ a ∈ adds, g.live a = true ∧ ∃ io, (g.ctxt a).pIOContext = [io])
    (sched : ℕ → FreeAction) :
    (∀ t, (ListFree.machine.trace (.start (ctxtListBuild g adds)) sched t).g.fault = false) ∧
      (Machine.Fair (· = .main) sched →
        (∀ a ∈ adds, ∀ t, (∀ sd ∈ ((ctxtListBuild g adds).ctxt a).socket,
            sd ∈ (ListFree.machine.trace (.start (ctxtListBuild g adds)) sched t).g.closed) →
          ∃ t' ≥ t, ¬ (ListFree.machine.trace (.start (ctxtListBuild g adds)) sched t').g.Outstanding
            a) →
        ∃ t, ListFree.Freed (ctxtListBuild g adds) adds.reverse
          (ListFree.machine.trace (.start (ctxtListBuild g adds)) sched t)) := by
  have hnil : Remaining g [] := ⟨List.nodup_nil, nofun, trivial, nofun, fun _ => hempty⟩
  have hnodup : (adds.reverse ++ []).Nodup := by simpa using hn
  obtain ⟨hr, hhead⟩ := ctxtListBuild_remaining hnil hempty hnodup hctxt
  rw [List.append_nil] at hr hhead
  have hAt : ∀ t, ListFree.At (ctxtListBuild g adds) adds.reverse
      (ListFree.machine.trace (.start (ctxtListBuild g adds)) sched t) :=
    Machine.trace_invariant (ListFree.start_at hr hhead) fun s x s' h hs => h.step hs
  refine ⟨fun t => ?_, fun hfair hkernel => ?_⟩
  · rw [(hAt t).fault, ctxtListBuild_fault (by simp [hempty]) fun a ha => (hctxt a ha).1, hfault]
  · obtain ⟨t, ht⟩ := (ListFree.start_at hr hhead).returns hfair fun a ha =>
      hkernel a (List.mem_reverse.mp ha)
    exact ⟨t, (hAt t).all_freed ht⟩

/-- Two clients with a receive outstanding on each, at shutdown. -/
def twoReceiving : Globals :=
  { Globals.initial with
    ctxt := fun a => ⟨some a, [{ PerIoContext.initial .clientIoRead with pending := true }], none,
      none, a⟩
    live := fun a => a == 1 || a == 2
    bEndServer := true }

/-- The thread and the completions of both contexts in turn. -/
def inTurn (t : ℕ) : FreeAction :=
  if t % 3 = 0 then .main else if t % 3 = 1 then .complete 1 0 else .complete 2 0

theorem ctxtListFree_frees_two :
    ∃ t, ListFree.Freed (ctxtListBuild twoReceiving [1, 2]) [2, 1]
      (ListFree.machine.trace (.start (ctxtListBuild twoReceiving [1, 2])) inTurn t) := by
  have hmain : Machine.Fair (· = .main) inTurn := fun t =>
    ⟨3 * t, by omega, if_pos (by omega)⟩
  have hone : Machine.Fair (· = .complete 1 0) inTurn := fun t =>
    ⟨3 * t + 1, by omega, by
      unfold inTurn
      rw [if_neg (by omega), if_pos (by omega)]⟩
  have htwo : Machine.Fair (· = .complete 2 0) inTurn := fun t =>
    ⟨3 * t + 2, by omega, by
      unfold inTurn
      rw [if_neg (by omega), if_neg (by omega)]⟩
  have hctxt : ∀ a ∈ [1, 2], twoReceiving.live a = true ∧
      ∃ io, (twoReceiving.ctxt a).pIOContext = [io] := by
    intro a ha
    refine ⟨?_, _, rfl⟩
    revert a
    decide
  refine (ctxtListFree_frees twoReceiving [1, 2] rfl rfl (by decide) hctxt inTurn).2 hmain ?_
  intro a ha t _
  simp only [List.mem_cons, List.not_mem_nil, or_false] at ha
  rcases ha with rfl | rfl
  · exact ListFree.not_outstanding_of_fair rfl hone t
  · exact ListFree.not_outstanding_of_fair rfl htwo t

end SelfStudy.Iocp
