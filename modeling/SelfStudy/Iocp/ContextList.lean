import SelfStudy.Lib.DoublyLinked
import SelfStudy.Lib.Machine
import SelfStudy.Iocp.Memory

/-!
# The list of client contexts

`CtxtListAddTo` and `CtxtListDeleteFrom`, and runs of them from an empty list.

`Represents g l` is the purpose of the two functions: `g_pCtxtList` holds the contexts of `l`,
newest first. Adding keeps it. Deleting keeps it exactly for the deletions of `Repaired`: the
function takes the node without a back link for the head, so it leaves `g_pCtxtList` alone when the
newest context goes and moves it when the oldest one goes.
-/

namespace SelfStudy.Iocp

open Lib

/-! ## The two functions -/

/-- The linking part of `CtxtListAddTo`. -/
def ctxtListLink (a : Addr) (g : Globals) : Globals :=
  match g.pCtxtList with
  | none =>
    (g.modify a fun c => { c with pCtxtBack := none, pCtxtForward := none }).setCtxtList (some a)
  | some pTemp =>
    ((g.setCtxtList (some a)).modify a fun c =>
      { c with pCtxtBack := some pTemp, pCtxtForward := none }).modify pTemp fun c =>
        { c with pCtxtForward := some a }

/-- `CtxtListAddTo`. -/
def ctxtListAddTo (a : Addr) (g : Globals) : Globals := (ctxtListLink a g.enter).leave

/-- The loop of `CtxtListDeleteFrom` over the I/O contexts. It does not come back when the first
one is NULL (an access violation) or, at shutdown, while an operation is pending. -/
def freesIoContexts (bEndServer : Bool) : List PerIoContext → Bool
  | [] => false
  | [io] => !(bEndServer && io.pending)
  | io :: ios => !(bEndServer && io.pending) && freesIoContexts bEndServer ios

/-- The relinking part of `CtxtListDeleteFrom`. -/
def ctxtListRelink (a : Addr) (g : Globals) : Globals :=
  match (g.ctxt a).pCtxtBack, (g.ctxt a).pCtxtForward with
  | none, none => g.setCtxtList none
  | none, some pForward =>
    (g.modify pForward fun c => { c with pCtxtBack := none }).setCtxtList (some pForward)
  | some pBack, none => g.modify pBack fun c => { c with pCtxtForward := none }
  | some pBack, some pForward =>
    (g.modify pBack fun c => { c with pCtxtForward := some pForward }).modify pForward fun c =>
      { c with pCtxtBack := some pBack }

/-- `CtxtListDeleteFrom`; `none` if it does not return. -/
def ctxtListDeleteFrom (a : Addr) (g : Globals) : Option Globals :=
  if freesIoContexts g.bEndServer (g.ctxt a).pIOContext then
    some ((ctxtListRelink a (g.enter.touch a)).free a).leave
  else none

/-! ## What the list is for -/

/-- Following `pCtxtBack` from `p`, as `CtxtListFree` does, visits `l`. -/
inductive Visits (g : Globals) : Option Addr → List Addr → Prop
  | nil : Visits g none []
  | cons {a : Addr} {l : List Addr} (h : Visits g (g.ctxt a).pCtxtBack l) :
      Visits g (some a) (a :: l)

/-- `g_pCtxtList` is the list of the contexts of `l`, the newest first. -/
structure Represents (g : Globals) (l : List Addr) : Prop where
  visits : Visits g g.pCtxtList l
  nodup : l.Nodup
  null_iff : g.pCtxtList = none ↔ l = []
  live : ∀ a, g.pCtxtList = some a → g.live a = true
  head_forward : ∀ a, g.pCtxtList = some a → (g.ctxt a).pCtxtForward = none
  neighbours : ∀ a b, [a, b] <:+: l →
    (g.ctxt a).pCtxtBack = some b ∧ (g.ctxt b).pCtxtForward = some a

/-- The invariant of the runs that keep the list: the contexts of `l` are live, each with its I/O
context, and linked both ways from the head to the oldest. -/
structure Linked (g : Globals) (l : List Addr) : Prop where
  nodup : l.Nodup
  head : g.pCtxtList = l.head?
  live : ∀ a ∈ l, g.live a = true
  seg : Seg (fun a => (g.ctxt a).pCtxtBack) (fun a => (g.ctxt a).pCtxtForward) none l none
  io : ∀ a ∈ l, freesIoContexts g.bEndServer (g.ctxt a).pIOContext = true

theorem visits_of_seg {g : Globals} {f : Option Addr} {l : List Addr}
    (h : Seg (fun a => (g.ctxt a).pCtxtBack) (fun a => (g.ctxt a).pCtxtForward) f l none) :
    Visits g l.head? l := by
  induction l generalizing f with
  | nil => exact .nil
  | cons a l ih =>
    obtain ⟨-, hb, h⟩ := h
    refine .cons ?_
    rw [show (g.ctxt a).pCtxtBack = l.head? by simpa using hb]
    exact ih h

theorem Linked.represents {g : Globals} {l : List Addr} (h : Linked g l) : Represents g l where
  visits := h.head ▸ visits_of_seg h.seg
  nodup := h.nodup
  null_iff := by rw [h.head, List.head?_eq_none_iff]
  live a ha := h.live a (List.mem_of_mem_head? (h.head ▸ ha))
  head_forward a ha := by
    obtain ⟨l', rfl⟩ := List.head?_eq_some_iff.mp (h.head ▸ ha)
    exact h.seg.1
  neighbours a b hab := by
    obtain ⟨l₁, l₂, rfl⟩ := hab
    have hs := h.seg
    rw [List.append_assoc, List.cons_append, List.singleton_append] at hs
    refine ⟨by simpa using (Seg.links hs).1, ?_⟩
    have hs' : Seg (fun a => (g.ctxt a).pCtxtBack) (fun a => (g.ctxt a).pCtxtForward) none
        ((l₁ ++ [a]) ++ b :: l₂) none := by simpa using hs
    simpa using (Seg.links hs').2

/-! ## Adding -/

theorem ctxtAllocate_linked {g : Globals} {l : List Addr} {a : Addr} (h : Linked g l)
    (ha : g.live a = false) (sd : Option Socket) (clientIo : IoOperation) :
    Linked (ctxtAllocate sd clientIo (.ok a) g).1 l := by
  have hne : ∀ b ∈ l, b ≠ a := by
    rintro b hb rfl
    simp [h.live b hb] at ha
  refine ⟨h.nodup, h.head, fun b hb => ?_, h.seg.congr (fun b hb => ?_) fun b hb => ?_,
    fun b hb => ?_⟩
  · simp [ctxtAllocate, hne b hb, h.live b hb]
  · simp [ctxtAllocate, hne b hb]
  · simp [ctxtAllocate, hne b hb]
  · simpa [ctxtAllocate, hne b hb] using h.io b hb

@[simp] theorem ctxtListLink_live (a : Addr) (g : Globals) :
    (ctxtListLink a g).live = g.live := by
  unfold ctxtListLink; split <;> rfl

@[simp] theorem ctxtListLink_bEndServer (a : Addr) (g : Globals) :
    (ctxtListLink a g).bEndServer = g.bEndServer := by
  unfold ctxtListLink; split <;> rfl

@[simp] theorem ctxtListLink_pCtxtList (a : Addr) (g : Globals) :
    (ctxtListLink a g).pCtxtList = some a := by
  unfold ctxtListLink; split <;> rfl

@[simp] theorem ctxtListLink_pIOContext (a b : Addr) (g : Globals) :
    ((ctxtListLink a g).ctxt b).pIOContext = (g.ctxt b).pIOContext := by
  unfold ctxtListLink; split <;> simp

theorem ctxtListLink_pCtxtBack (a b : Addr) (g : Globals) :
    ((ctxtListLink a g).ctxt b).pCtxtBack =
      if b = a then g.pCtxtList else (g.ctxt b).pCtxtBack := by
  unfold ctxtListLink; split <;> rename_i h <;> simp [h]

theorem ctxtListLink_pCtxtForward (a b : Addr) (g : Globals) :
    ((ctxtListLink a g).ctxt b).pCtxtForward =
      if g.pCtxtList = some b then some a
      else if b = a then none else (g.ctxt b).pCtxtForward := by
  unfold ctxtListLink
  split <;> rename_i h <;> simp [h, eq_comm]

/-- The links after `CtxtListAddTo`. -/
theorem ctxtListAddTo_seg {g : Globals} {l : List Addr} {a : Addr} (hn : l.Nodup) (ha : a ∉ l)
    (hhead : g.pCtxtList = l.head?)
    (h : Seg (fun b => (g.ctxt b).pCtxtBack) (fun b => (g.ctxt b).pCtxtForward) none l none) :
    Seg (fun b => ((ctxtListAddTo a g).ctxt b).pCtxtBack)
      (fun b => ((ctxtListAddTo a g).ctxt b).pCtxtForward) none (a :: l) none := by
  have hne : ∀ b ∈ l, b ≠ a := fun b hb e => ha (e ▸ hb)
  refine Seg.push hn ?_ ?_ (fun b hb => ?_) (fun b hb hbt => ?_) (fun b hb => ?_) h
  · simp [ctxtListAddTo, ctxtListLink_pCtxtBack, hhead]
  · have : l.head? ≠ some a := fun e => ha (List.mem_of_mem_head? e)
    simp [ctxtListAddTo, ctxtListLink_pCtxtForward, hhead, this]
  · simp [ctxtListAddTo, ctxtListLink_pCtxtBack, hne b hb]
  · simp [ctxtListAddTo, ctxtListLink_pCtxtForward, hhead, hbt, hne b hb]
  · simp [ctxtListAddTo, ctxtListLink_pCtxtForward, hhead, hb]

theorem ctxtListAddTo_linked {g : Globals} {l : List Addr} {a : Addr} (h : Linked g l)
    (ha : a ∉ l) (hlive : g.live a = true)
    (hio : freesIoContexts g.bEndServer (g.ctxt a).pIOContext = true) :
    Linked (ctxtListAddTo a g) (a :: l) where
  nodup := List.nodup_cons.mpr ⟨ha, h.nodup⟩
  head := by simp [ctxtListAddTo]
  live b hb := by
    rcases List.mem_cons.mp hb with rfl | hb
    · simpa [ctxtListAddTo] using hlive
    · simpa [ctxtListAddTo] using h.live b hb
  seg := ctxtListAddTo_seg h.nodup ha h.head h.seg
  io b hb := by
    rcases List.mem_cons.mp hb with rfl | hb
    · simpa [ctxtListAddTo] using hio
    · simpa [ctxtListAddTo] using h.io b hb

/-! ## Deleting -/

/-- The deletions that keep the list: of the oldest of at most two contexts, and of a context that
is neither the newest nor the oldest. -/
def Repaired (l : List Addr) (a : Addr) : Prop :=
  l.length ≤ 2 ∧ l.getLast? = some a ∨ l.head? ≠ some a ∧ l.getLast? ≠ some a

instance (l : List Addr) (a : Addr) : Decidable (Repaired l a) := by
  unfold Repaired; infer_instance

@[simp] theorem ctxtListRelink_live (a : Addr) (g : Globals) :
    (ctxtListRelink a g).live = g.live := by
  unfold ctxtListRelink; split <;> rfl

@[simp] theorem ctxtListRelink_bEndServer (a : Addr) (g : Globals) :
    (ctxtListRelink a g).bEndServer = g.bEndServer := by
  unfold ctxtListRelink; split <;> rfl

@[simp] theorem ctxtListRelink_pIOContext (a b : Addr) (g : Globals) :
    ((ctxtListRelink a g).ctxt b).pIOContext = (g.ctxt b).pIOContext := by
  unfold ctxtListRelink; split <;> simp

/-- The head moves to the newer neighbour whenever there is no older one. -/
theorem ctxtListRelink_pCtxtList (a : Addr) (g : Globals) :
    (ctxtListRelink a g).pCtxtList =
      if (g.ctxt a).pCtxtBack = none then (g.ctxt a).pCtxtForward else g.pCtxtList := by
  unfold ctxtListRelink
  split <;> rename_i hb hf <;> simp [hb, hf]

/-- The newer neighbour now points back past the deleted context. -/
theorem ctxtListRelink_pCtxtBack (a b : Addr) (g : Globals) :
    ((ctxtListRelink a g).ctxt b).pCtxtBack =
      if (g.ctxt a).pCtxtForward = some b then (g.ctxt a).pCtxtBack
      else (g.ctxt b).pCtxtBack := by
  unfold ctxtListRelink
  split <;> rename_i hb hf <;> simp [hb, hf, eq_comm]

/-- The older neighbour now points forward past the deleted context. -/
theorem ctxtListRelink_pCtxtForward (a b : Addr) (g : Globals) :
    ((ctxtListRelink a g).ctxt b).pCtxtForward =
      if (g.ctxt a).pCtxtBack = some b then (g.ctxt a).pCtxtForward
      else (g.ctxt b).pCtxtForward := by
  unfold ctxtListRelink
  split <;> rename_i hb hf <;> simp [hb, hf, eq_comm]

/-- Whatever context goes, the links of the others are repaired. -/
theorem ctxtListRelink_seg {g : Globals} {l₁ l₂ : List Addr} {a : Addr}
    (hn : (l₁ ++ a :: l₂).Nodup)
    (h : Seg (fun b => (g.ctxt b).pCtxtBack) (fun b => (g.ctxt b).pCtxtForward) none
      (l₁ ++ a :: l₂) none) :
    Seg (fun b => ((ctxtListRelink a g).ctxt b).pCtxtBack)
      (fun b => ((ctxtListRelink a g).ctxt b).pCtxtForward) none (l₁ ++ l₂) none := by
  obtain ⟨hb, hf⟩ := Seg.links h
  refine h.unlink hn (fun b _ hne => ?_) (fun b e => ?_) (fun b _ hne => ?_)
    fun b e => ?_
  · rw [ctxtListRelink_pCtxtBack, if_neg (by rwa [hf])]
  · rw [ctxtListRelink_pCtxtBack, if_pos (by rwa [hf])]
  · rw [ctxtListRelink_pCtxtForward, if_neg (by rwa [hb])]
  · rw [ctxtListRelink_pCtxtForward, if_pos (by rwa [hb])]

theorem repaired_iff {l₁ l₂ : List Addr} {a : Addr} (hn : (l₁ ++ a :: l₂).Nodup) :
    Repaired (l₁ ++ a :: l₂) a ↔ l₂ = [] ∧ l₁.length ≤ 1 ∨ l₂ ≠ [] ∧ l₁ ≠ [] := by
  rw [List.nodup_append, List.nodup_cons] at hn
  have hlast : (l₁ ++ a :: l₂).getLast? = some a ↔ l₂ = [] := by
    rw [List.getLast?_append_of_ne_nil _ (by simp), List.getLast?_cons]
    cases hl : l₂.getLast? with
    | none => simpa using hl
    | some b =>
      have hb := List.mem_of_getLast? hl
      have hba : b ≠ a := fun e => hn.2.1.1 (e ▸ hb)
      simp [hba, List.ne_nil_of_mem hb]
  have hhead : (l₁ ++ a :: l₂).head? = some a ↔ l₁ = [] := by
    cases l₁ with
    | nil => simp
    | cons b l₁ =>
      have hba : b ≠ a := hn.2.2 b (by simp) a (by simp)
      simp [hba]
  unfold Repaired
  rw [ne_eq, ne_eq, hlast, hhead]
  cases l₂ <;> simp

/-- The head is right after the deletion exactly if the deletion is a `Repaired` one. -/
theorem ctxtListRelink_head_iff {g : Globals} {l₁ l₂ : List Addr} {a : Addr}
    (hn : (l₁ ++ a :: l₂).Nodup) (hhead : g.pCtxtList = (l₁ ++ a :: l₂).head?)
    (h : Seg (fun b => (g.ctxt b).pCtxtBack) (fun b => (g.ctxt b).pCtxtForward) none
      (l₁ ++ a :: l₂) none) :
    (ctxtListRelink a g).pCtxtList = (l₁ ++ l₂).head? ↔ Repaired (l₁ ++ a :: l₂) a := by
  obtain ⟨hb, hf⟩ := Seg.links h
  rw [repaired_iff hn, ctxtListRelink_pCtxtList, hb, hf, hhead]
  rw [List.nodup_append, List.nodup_cons] at hn
  cases l₂ with
  | nil =>
    -- the oldest context goes: the head moves to its newer neighbour
    rcases l₁ with - | ⟨b, - | ⟨c, l₁⟩⟩
    · simp
    · simp
    · have hne : (c :: l₁).getLast? ≠ some b := fun e =>
        (List.nodup_cons.mp hn.1).1 (List.mem_of_getLast? e)
      simpa using hne
  | cons d l₂ =>
    cases l₁ with
    | nil =>
      -- the newest of several goes: the head stays on it
      have hda : a ≠ d := fun e => hn.2.1.1 (by simp [e])
      simpa using hda
    | cons b l₁ => simp

/-- **One deletion.** It returns, and it keeps the list exactly if it is a `Repaired` one. -/
theorem ctxtListDeleteFrom_spec {g : Globals} {l : List Addr} {a : Addr} (h : Linked g l)
    (ha : a ∈ l) : ∃ g', ctxtListDeleteFrom a g = some g' ∧
      (Repaired l a → Linked g' (l.erase a)) ∧
      (Represents g' (l.erase a) → Repaired l a) := by
  obtain ⟨l₁, l₂, rfl⟩ := List.append_of_mem ha
  have hn := h.nodup
  have hne : ∀ b ∈ l₁ ++ l₂, b ≠ a ∧ b ∈ l₁ ++ a :: l₂ := by
    rw [List.nodup_append, List.nodup_cons] at hn
    intro b hb
    rcases List.mem_append.mp hb with hb | hb
    · exact ⟨fun e => hn.2.2 b hb a (by simp) e, by simp [hb]⟩
    · exact ⟨fun e => hn.2.1.1 (e ▸ hb), by simp [hb]⟩
  have herase : (l₁ ++ a :: l₂).erase a = l₁ ++ l₂ := by
    rw [List.erase_append_right _ fun hm => (hne a (by simp [hm])).1 rfl, List.erase_cons_head]
  -- entering the critical section changes nothing that matters here
  have h' : Linked (g.enter.touch a) (l₁ ++ a :: l₂) := ⟨h.nodup, h.head, h.live, h.seg, h.io⟩
  have hhead := ctxtListRelink_head_iff h'.nodup h'.head h'.seg
  refine ⟨_, if_pos (h.io a ha), fun hr => ?_, fun hr => ?_⟩ <;> rw [herase] at *
  · refine ⟨?_, hhead.mpr hr, fun b hb => ?_, ctxtListRelink_seg hn h'.seg, fun b hb => ?_⟩
    · exact hn.sublist (by simp)
    · simpa [(hne b hb).1] using h.live b (hne b hb).2
    · simpa using h.io b (hne b hb).2
  · have hv := hr.visits
    refine hhead.mp ?_
    show (ctxtListRelink a (g.enter.touch a)).pCtxtList = _
    simp only [Globals.leave_pCtxtList, Globals.free_pCtxtList] at hv
    generalize (ctxtListRelink a (g.enter.touch a)).pCtxtList = p at hv
    generalize l₁ ++ l₂ = l at hv
    cases hv <;> rfl

/-! ## Runs -/

/-- A call: `CtxtListAddTo` of a context allocated for the socket `sd`, or
`CtxtListDeleteFrom`. -/
inductive ListCall
  | addTo (a : Addr) (sd : Option Socket)
  | deleteFrom (a : Addr)
  deriving DecidableEq, Repr

/-- Calls on a fresh context, or on one that is in the list. The second component is the contexts
added and not yet deleted, newest first. -/
def contextList : Machine (Globals × List Addr) ListCall where
  init s := s.1.pCtxtList = none ∧ s.2 = []
  step s
    | .addTo a sd =>
      if s.1.live a then none
      else some (ctxtListAddTo a (ctxtAllocate sd .clientIoAccept (.ok a) s.1).1, a :: s.2)
    | .deleteFrom a =>
      if a ∈ s.2 then (ctxtListDeleteFrom a s.1).map fun g => (g, s.2.erase a) else none

/-- The deletions of a step are `Repaired` ones. -/
def KeepsList (s : Globals × List Addr) : ListCall → Prop
  | .addTo _ _ => True
  | .deleteFrom a => Repaired s.2 a

theorem contextList_add_linked {s s' : Globals × List Addr} {a : Addr} {sd : Option Socket}
    (h : Linked s.1 s.2) (hs : contextList.step s (.addTo a sd) = some s') :
    Linked s'.1 s'.2 := by
  obtain ⟨hfresh, rfl⟩ : s.1.live a = false ∧
      (ctxtListAddTo a (ctxtAllocate sd .clientIoAccept (.ok a) s.1).1, a :: s.2) = s' := by
    simpa [contextList] using hs
  refine ctxtListAddTo_linked (ctxtAllocate_linked h hfresh sd _) (fun hm => ?_) ?_ ?_
  · simp [h.live a hm] at hfresh
  · simp [ctxtAllocate]
  · simp [ctxtAllocate, freesIoContexts, PerIoContext.initial]

theorem contextList_delete_spec {s s' : Globals × List Addr} {a : Addr} (h : Linked s.1 s.2)
    (hs : contextList.step s (.deleteFrom a) = some s') :
    (Repaired s.2 a → Linked s'.1 s'.2) ∧ (Represents s'.1 s'.2 → Repaired s.2 a) := by
  simp only [contextList] at hs
  split_ifs at hs with ha
  obtain ⟨g', hg', hspec⟩ := ctxtListDeleteFrom_spec h ha
  rw [hg'] at hs
  obtain rfl := Option.some.inj hs
  exact hspec

/-- **The list over runs.** From an empty list, every state of a run has a well formed list of
exactly the contexts added and not deleted, if and only if every deletion of the run is a
`Repaired` one. -/
theorem contextList_represents_iff (g : Globals) (calls : List ListCall) :
    contextList.Always (fun s => Represents s.1 s.2) (g.setCtxtList none, []) calls ↔
      contextList.AllSteps KeepsList (g.setCtxtList none, []) calls := by
  refine Machine.always_iff_allSteps (I := fun s : Globals × List Addr => Linked s.1 s.2)
    (fun s h => h.represents) (fun s c s' h hs hk => ?_) (fun s c s' h hs hr => ?_) ?_ calls
  · cases c with
    | addTo a sd => exact contextList_add_linked h hs
    | deleteFrom a => exact (contextList_delete_spec h hs).1 hk
  · cases c with
    | addTo a sd => trivial
    | deleteFrom a => exact (contextList_delete_spec h hs).2 hr
  · exact ⟨by simp, by simp, by simp, by simp, by simp⟩

/-- Two clients, and the newer one closes: `g_pCtxtList` is left on the freed context. -/
theorem contextList_newest_deleted :
    ¬ contextList.Always (fun s => Represents s.1 s.2) (Globals.initial, [])
      [.addTo 1 (some 1), .addTo 2 (some 2), .deleteFrom 2] := by
  intro h
  have h' := (((h.2 _ rfl).2 _ rfl).2 _ rfl)
  exact absurd (h'.live 2 rfl) (by decide)

end SelfStudy.Iocp
