import SelfStudy.Iocp.Server
import SelfStudy.Lib.RecursiveLock

/-!
# The critical section

The six functions that take `g_CriticalSection`, statement by statement and with their calls of each
other, for any number of threads. `Statement.exec` is what a statement does to the data, and which
statements come next; the lock, the calls and the returns are steps of the machine. Every other
change of the data is the action `program`, so that a call starts in any state and finds any data
later on.

`lock_balanced_iff` says when the calls leave the lock as they found it. `leads_closeClient` and its
neighbours connect the statements with the functions as the server takes them, in one step.
-/

namespace SelfStudy.Iocp.Locking

open Lib Globals

/-! ## The statements -/

/-- A function with its arguments; a pointer that the function tests may be NULL. -/
inductive Procedure
  | ctxtAllocate (sd : Option Socket) (clientIo : IoOperation)
  | updateCompletionPort (sd : Option Socket) (clientIo : IoOperation) (bAddToList : Bool)
  | ctxtListAddTo (a : Addr)
  | ctxtListDeleteFrom (p : Option Addr)
  | closeClient (p : Option Addr)
  | ctxtListFree
  deriving DecidableEq, Repr

inductive Statement
  | enter
  | leave
  | call (f : Procedure)
  | returns (p : Option Addr)
  | xmalloc (sd : Option Socket) (clientIo : IoOperation)
  | associate (bAddToList : Bool)
  | link (a : Addr)
  | relink (a : Addr)
  | xfree (a : Addr)
  | closeSockets (a : Addr)
  | freeList
  | freeFrom (pTemp1 : Option Addr)
  deriving DecidableEq, Repr

/-- The bodies of the functions. -/
def Procedure.body : Procedure → List Statement
  | .ctxtAllocate sd clientIo => [.enter, .xmalloc sd clientIo, .leave]
  | .updateCompletionPort sd clientIo bAddToList =>
    [.call (.ctxtAllocate sd clientIo), .associate bAddToList]
  | .ctxtListAddTo a => [.enter, .link a, .leave]
  | .ctxtListDeleteFrom none => [.enter, .leave]
  | .ctxtListDeleteFrom (some a) => [.enter, .relink a, .xfree a, .leave]
  | .closeClient none => [.enter, .leave]
  | .closeClient (some a) =>
    [.enter, .closeSockets a, .call (.ctxtListDeleteFrom (some a)), .leave]
  | .ctxtListFree => [.enter, .freeList, .leave]

/-- The data after a statement, the value returned last, and the statements to go on with before the
rest of the function; `none` in their place is a `return`. -/
structure Outcome where
  g : Globals
  result : Option Addr
  next : Option (List Statement)

/-- The `closesocket` calls of `CloseClient`. -/
def closeHandles (a : Addr) (io : PerIoContext) (g : Globals) : Globals :=
  ((((g.recordClose a).closesocket io.socketAccept).modifyIo a fun io =>
    { io with socketAccept := none }).closesocket (g.ctxt a).socket).modify a fun c =>
      { c with socket := none }

/-- A statement other than the lock operations and the calls. `freeFrom` is the loop of
`CtxtListFree`; `xfree` is the end of `CtxtListDeleteFrom`, which at shutdown waits for the pending
operations of the context. -/
def Statement.exec (g : Globals) (result : Option Addr) : Statement → Answer → Option Outcome
  | .returns p, .none => some ⟨g, p, none⟩
  | .xmalloc sd clientIo, .heap x =>
    if x.fresh g then
      match x with
      | .ok a =>
        some ⟨(g.allocate a).modify a fun c =>
          { c with socket := sd, pIOContext := [.initial clientIo],
                   pCtxtBack := none, pCtxtForward := none }, some a, some []⟩
      | .noSocketContext => some ⟨g, none, none⟩
      | .noIoContext a => some ⟨(g.allocate a).free a, some a, some []⟩
    else none
  | .associate bAddToList, .call ok =>
    match result with
    | none => some ⟨g, none, none⟩
    | some a =>
      if ok then
        some ⟨g, some a, some (if bAddToList then [.call (.ctxtListAddTo a), .returns (some a)]
          else [.returns (some a)])⟩
      else some ⟨((g.setIocp false).touch a).free a, none, none⟩
  | .link a, .none => some ⟨ctxtListLink a g, result, some []⟩
  | .relink a, .none => some ⟨ctxtListRelink a (g.touch a), result, some []⟩
  | .xfree a, .none =>
    if freesIoContexts g.bEndServer (g.ctxt a).pIOContext then some ⟨g.free a, result, some []⟩
    else none
  | .closeSockets a, .none => (g.io a).map fun io => ⟨closeHandles a io g, result, some []⟩
  | .freeList, .none => some ⟨g, result, some [.freeFrom g.pCtxtList]⟩
  | .freeFrom p, .none =>
    match p with
    | none => some ⟨g, result, some []⟩
    | some pTemp1 =>
      some ⟨g.touch pTemp1, result,
        some [.call (.closeClient (some pTemp1)), .freeFrom (g.ctxt pTemp1).pCtxtBack]⟩
  | _, _ => none

/-! ## The threads -/

/-- A call that has not returned: what is left of the body. `entry` is the recursion count of the
thread when it made the call, and not in the source. -/
structure Frame where
  entry : ℕ
  todo : List Statement
  deriving DecidableEq, Repr

/-- The calls of a thread, the innermost first, and the value that it was returned last. -/
structure Thread where
  frames : List Frame
  result : Option Addr
  deriving DecidableEq, Repr

structure Threads (ι : Type*) where
  g : Globals
  lock : RecursiveLock ι
  thread : ι → Thread

inductive Action (ι : Type*)
  | call (i : ι) (f : Procedure)
  | step (i : ι) (ans : Answer)
  | program (g : Globals)

variable {ι : Type*} [DecidableEq ι]

namespace Threads

variable (s : Threads ι)

/-- The state in which the data is `g`, the lock is `l` and the thread `i` is `t`. -/
def put (i : ι) (g : Globals) (l : RecursiveLock ι) (t : Thread) : Threads ι where
  g := g
  lock := l
  thread := Function.update s.thread i t

/-- The next step of a thread in a call. -/
def advance (i : ι) (e : ℕ) (fs : List Frame) (r : Option Addr) (ans : Answer) :
    List Statement → Option (Threads ι)
  | [] => if ans = .none then some (s.put i s.g s.lock ⟨fs, r⟩) else none
  | .enter :: todo =>
    if ans = .none then
      (s.lock.enter i).map fun l => s.put i s.g.enter l ⟨⟨e, todo⟩ :: fs, r⟩
    else none
  | .leave :: todo =>
    if ans = .none then
      (s.lock.leave i).map fun l => s.put i s.g.leave l ⟨⟨e, todo⟩ :: fs, r⟩
    else none
  | .call f :: todo =>
    if ans = .none then
      some (s.put i s.g s.lock ⟨⟨s.lock.recursion i, f.body⟩ :: ⟨e, todo⟩ :: fs, r⟩)
    else none
  | st :: todo => (st.exec s.g r ans).map fun o =>
      s.put i o.g s.lock ⟨⟨e, o.next.elim [] (· ++ todo)⟩ :: fs, o.result⟩

/-- A thread that is in none of the functions calls any of them; a thread in one makes a step; the
rest of the program changes the data. -/
def step : Action ι → Option (Threads ι)
  | .call i f =>
    if (s.thread i).frames = [] then
      some (s.put i s.g s.lock ⟨[⟨s.lock.recursion i, f.body⟩], (s.thread i).result⟩)
    else none
  | .step i ans =>
    match (s.thread i).frames with
    | [] => none
    | ⟨e, todo⟩ :: fs => s.advance i e fs (s.thread i).result ans todo
  | .program g => if g.criticalSection = s.g.criticalSection then some { s with g := g } else none

/-- No thread is in one of the functions, and the data is that of `g`. -/
def initial (g : Globals) : Threads ι where
  g := { g with criticalSection := 0 }
  lock := .free
  thread _ := ⟨[], none⟩

end Threads

/-- The calls of the six functions by any threads. -/
def machine (ι : Type*) [DecidableEq ι] : Machine (Threads ι) (Action ι) where
  init s := ∃ g, s = .initial g
  step := Threads.step

/-! ## What a step can do -/

/-- The steps of the thread `i`. -/
inductive ThreadStep (s : Threads ι) (i : ι) : List Frame → Answer → RecursiveLock ι →
    List Frame → Prop
  | ret {e fs} : ThreadStep s i (⟨e, []⟩ :: fs) .none s.lock fs
  | enter {e todo fs l} (h : s.lock.enter i = some l) :
    ThreadStep s i (⟨e, .enter :: todo⟩ :: fs) .none l (⟨e, todo⟩ :: fs)
  | leave {e todo fs l} (h : s.lock.leave i = some l) :
    ThreadStep s i (⟨e, .leave :: todo⟩ :: fs) .none l (⟨e, todo⟩ :: fs)
  | call {e f todo fs} :
    ThreadStep s i (⟨e, .call f :: todo⟩ :: fs) .none s.lock
      (⟨s.lock.recursion i, f.body⟩ :: ⟨e, todo⟩ :: fs)
  | next {e st todo fs ans g r o sts} (h : Statement.exec g r st ans = some o)
    (ho : o.next = some sts) :
    ThreadStep s i (⟨e, st :: todo⟩ :: fs) ans s.lock (⟨e, sts ++ todo⟩ :: fs)
  | exit {e st todo fs ans g r o} (h : Statement.exec g r st ans = some o) (ho : o.next = none) :
    ThreadStep s i (⟨e, st :: todo⟩ :: fs) ans s.lock (⟨e, []⟩ :: fs)

/-- A statement that is no lock operation does not touch the lock. -/
theorem Statement.exec_criticalSection {g : Globals} {r : Option Addr} {st : Statement}
    {ans : Answer} {o : Outcome} (h : st.exec g r ans = some o) :
    o.g.criticalSection = g.criticalSection := by
  cases st <;> cases ans <;> try cases (show none = some o from h)
  case returns.none | freeList.none => exact Option.some.inj h ▸ rfl
  case freeFrom.none pTemp1 => cases pTemp1 <;> exact Option.some.inj h ▸ rfl
  case xmalloc.heap sd clientIo x =>
    obtain ⟨-, h⟩ := Option.ite_none_right_eq_some.mp h
    cases x <;> exact Option.some.inj h ▸ rfl
  case associate.call b ok =>
    cases r with
    | none => exact Option.some.inj h ▸ rfl
    | some a => cases ok <;> exact Option.some.inj h ▸ rfl
  case link.none a =>
    obtain rfl := Option.some.inj h
    unfold ctxtListLink
    split <;> rfl
  case relink.none a =>
    obtain rfl := Option.some.inj h
    unfold ctxtListRelink
    split <;> rfl
  case xfree.none a =>
    obtain ⟨-, h⟩ := Option.ite_none_right_eq_some.mp h
    exact Option.some.inj h ▸ rfl
  case closeSockets.none a =>
    obtain ⟨io, -, rfl⟩ := Option.map_eq_some_iff.mp h
    rfl

variable {s s' : Threads ι} {i : ι} {e : ℕ} {fs : List Frame} {r : Option Addr} {ans : Answer}

section Put

variable {g : Globals} {l : RecursiveLock ι} {t : Thread}

@[simp] theorem Threads.put_self : (s.put i g l t).thread i = t := Function.update_self ..

theorem Threads.put_of_ne {j : ι} (h : j ≠ i) : (s.put i g l t).thread j = s.thread j :=
  Function.update_of_ne h ..

end Put

/-- **Inversion.** -/
theorem Threads.advance_cases {todo : List Statement}
    (h : s.advance i e fs r ans todo = some s') :
    (∀ j, j ≠ i → s'.thread j = s.thread j) ∧
      ThreadStep s i (⟨e, todo⟩ :: fs) ans s'.lock (s'.thread i).frames ∧
      (s.g.criticalSection = s.lock.count → s'.g.criticalSection = s'.lock.count) := by
  cases todo with
  | nil =>
    obtain ⟨rfl, h⟩ := Option.ite_none_right_eq_some.mp h
    obtain rfl := Option.some.inj h
    refine ⟨fun j hj => put_of_ne hj, ?_, id⟩
    rw [put_self]
    exact .ret
  | cons st todo =>
    have hexec : (st.exec s.g r ans).map (fun o => s.put i o.g s.lock
        ⟨⟨e, o.next.elim [] (· ++ todo)⟩ :: fs, o.result⟩) = some s' →
        (∀ j, j ≠ i → s'.thread j = s.thread j) ∧
          ThreadStep s i (⟨e, st :: todo⟩ :: fs) ans s'.lock (s'.thread i).frames ∧
          (s.g.criticalSection = s.lock.count → s'.g.criticalSection = s'.lock.count) := by
      intro h
      obtain ⟨o, ho, rfl⟩ := Option.map_eq_some_iff.mp h
      refine ⟨fun j hj => put_of_ne hj, ?_, (Statement.exec_criticalSection ho).trans⟩
      rw [put_self]
      cases hn : o.next with
      | none => exact .exit ho hn
      | some sts => exact .next ho hn
    cases st with
    | enter =>
      obtain ⟨rfl, h⟩ := Option.ite_none_right_eq_some.mp h
      obtain ⟨l, hl, rfl⟩ := Option.map_eq_some_iff.mp h
      refine ⟨fun j hj => put_of_ne hj, ?_, fun hc => ?_⟩
      · rw [put_self]
        exact .enter hl
      · exact (congrArg (· + 1) hc).trans (RecursiveLock.count_enter hl).symm
    | leave =>
      obtain ⟨rfl, h⟩ := Option.ite_none_right_eq_some.mp h
      obtain ⟨l, hl, rfl⟩ := Option.map_eq_some_iff.mp h
      refine ⟨fun j hj => put_of_ne hj, ?_, fun hc => ?_⟩
      · rw [put_self]
        exact .leave hl
      · exact (congrArg (· - 1) hc).trans (RecursiveLock.count_leave hl).symm
    | call f =>
      obtain ⟨rfl, h⟩ := Option.ite_none_right_eq_some.mp h
      obtain rfl := Option.some.inj h
      refine ⟨fun j hj => put_of_ne hj, ?_, id⟩
      rw [put_self]
      exact .call
    | _ => exact hexec h

/-! ## How deep a thread is in the critical section -/

namespace Statement

/-- The statements of a critical section. -/
def locked : Statement → Bool
  | .enter | .leave | .returns _ | .associate _ => false
  | _ => true

/-- The statements of `UpdateCompletionPort`, which has no critical section of its own. -/
def unlocked : Statement → Bool
  | .call _ | .returns _ | .associate _ => true
  | _ => false

/-- In a critical section there is one way out that skips the rest: `CtxtAllocate` without memory for
the socket context. -/
theorem exec_locked {g : Globals} {st : Statement} {o : Outcome} (h : st.exec g r ans = some o)
    (hst : st.locked = true) :
    (∃ sts, o.next = some sts ∧ ∀ st ∈ sts, st.locked = true) ∨
      o.next = none ∧ ans = .heap .noSocketContext := by
  cases st <;> cases ans <;> try cases (show none = some o from h)
  case returns.none | associate.call => cases hst
  case link.none | relink.none =>
    obtain rfl := Option.some.inj h
    exact .inl ⟨[], rfl, nofun⟩
  case freeList.none =>
    obtain rfl := Option.some.inj h
    exact .inl ⟨_, rfl, by simp [locked]⟩
  case freeFrom.none pTemp1 =>
    cases pTemp1 <;> obtain rfl := Option.some.inj h
    · exact .inl ⟨_, rfl, nofun⟩
    · exact .inl ⟨_, rfl, by simp [locked]⟩
  case xmalloc.heap sd clientIo x =>
    obtain ⟨-, h⟩ := Option.ite_none_right_eq_some.mp h
    cases x <;> obtain rfl := Option.some.inj h
    · exact .inl ⟨_, rfl, nofun⟩
    · exact .inr ⟨rfl, rfl⟩
    · exact .inl ⟨_, rfl, nofun⟩
  case xfree.none a =>
    obtain ⟨-, h⟩ := Option.ite_none_right_eq_some.mp h
    obtain rfl := Option.some.inj h
    exact .inl ⟨_, rfl, nofun⟩
  case closeSockets.none a =>
    obtain ⟨io, -, rfl⟩ := Option.map_eq_some_iff.mp h
    exact .inl ⟨_, rfl, nofun⟩

theorem exec_unlocked {g : Globals} {st : Statement} {o : Outcome} {sts : List Statement}
    (h : st.exec g r ans = some o) (hst : st.unlocked = true) (ho : o.next = some sts) :
    ∀ st ∈ sts, st.unlocked = true := by
  cases st <;> cases ans <;> try cases (show none = some o from h)
  case returns.none =>
    obtain rfl := Option.some.inj h
    cases ho
  case associate.call b ok =>
    cases r with
    | none =>
      obtain rfl := Option.some.inj h
      cases ho
    | some a =>
      cases ok <;> obtain rfl := Option.some.inj h
      · cases ho
      · cases b <;> obtain rfl := Option.some.inj ho <;> simp [unlocked]
  all_goals cases hst

end Statement

/-- What a frame has still to do, and how often it has entered the lock and not left it. -/
inductive Shape : List Statement → ℕ → Prop
  | outside {todo} (h : ∀ st ∈ todo, st.unlocked = true) : Shape todo 0
  | before {sts} (h : ∀ st ∈ sts, st.locked = true) : Shape (.enter :: (sts ++ [.leave])) 0
  | inside {sts} (h : ∀ st ∈ sts, st.locked = true) : Shape (sts ++ [.leave]) 1

theorem Procedure.body_shape (f : Procedure) : Shape f.body 0 := by
  have before : ∀ sts : List Statement, (∀ st ∈ sts, st.locked = true) →
      Shape (.enter :: (sts ++ [.leave])) 0 := fun _ => .before
  cases f with
  | ctxtAllocate sd clientIo => exact before [_] (by simp [Statement.locked])
  | updateCompletionPort sd clientIo b => exact .outside (by simp [body, Statement.unlocked])
  | ctxtListAddTo a => exact before [_] (by simp [Statement.locked])
  | ctxtListDeleteFrom p =>
    cases p with
    | none => exact before [] nofun
    | some a => exact before [_, _] (by simp [Statement.locked])
  | closeClient p =>
    cases p with
    | none => exact before [] nofun
    | some a => exact before [_, _] (by simp [Statement.locked])
  | ctxtListFree => exact before [_] (by simp [Statement.locked])

/-- The calls of a thread that has entered the lock `n` times: each frame has recorded how often the
thread had done so when it made the call. -/
inductive Nested : List Frame → ℕ → Prop
  | nil : Nested [] 0
  | cons {todo fs n d} (hs : Shape todo d) (h : Nested fs n) : Nested (⟨n, todo⟩ :: fs) (n + d)

theorem Nested.cons_inv {todo : List Statement} {n : ℕ} (h : Nested (⟨e, todo⟩ :: fs) n) :
    ∃ d, Shape todo d ∧ Nested fs e ∧ n = e + d := by
  cases h with
  | cons hs h => exact ⟨_, hs, h, rfl⟩

/-- A frame that is about to return has left the lock as often as it has entered it. -/
theorem Shape.nil {d : ℕ} (h : Shape [] d) : d = 0 := by
  generalize htodo : [] = todo at h
  cases h with
  | outside => rfl
  | before => cases htodo
  | inside => simp at htodo

theorem Shape.enter {todo : List Statement} {d : ℕ} (h : Shape (.enter :: todo) d) :
    d = 0 ∧ Shape todo 1 := by
  generalize htodo : Statement.enter :: todo = todo' at h
  cases h with
  | outside h => cases h .enter (by simp [← htodo])
  | before h =>
    obtain rfl := (List.cons.inj htodo).2
    exact ⟨rfl, .inside h⟩
  | @inside sts h =>
    cases sts with
    | nil => cases (List.cons.inj htodo).1
    | cons st sts =>
      obtain ⟨rfl, -⟩ := List.cons.inj htodo
      cases h .enter (by simp)

theorem Shape.leave {todo : List Statement} {d : ℕ} (h : Shape (.leave :: todo) d) :
    d = 1 ∧ Shape todo 0 := by
  generalize htodo : Statement.leave :: todo = todo' at h
  cases h with
  | outside h => cases h .leave (by simp [← htodo])
  | before h => cases (List.cons.inj htodo).1
  | @inside sts h =>
    cases sts with
    | nil =>
      obtain rfl := (List.cons.inj htodo).2
      exact ⟨rfl, .outside nofun⟩
    | cons st sts =>
      obtain ⟨rfl, -⟩ := List.cons.inj htodo
      cases h .leave (by simp)

/-- A statement that is no lock operation is one of a critical section, which goes on after it, or
one of `UpdateCompletionPort`. -/
theorem Shape.cons {st : Statement} {todo : List Statement} {d : ℕ} (h : Shape (st :: todo) d)
    (he : st ≠ .enter) (hl : st ≠ .leave) :
    d = 1 ∧ st.locked = true ∧
        (∀ sts : List Statement, (∀ st ∈ sts, st.locked = true) → Shape (sts ++ todo) 1) ∨
      d = 0 ∧ st.unlocked = true ∧
        (∀ sts : List Statement, (∀ st ∈ sts, st.unlocked = true) → Shape (sts ++ todo) 0) := by
  generalize htodo : st :: todo = todo' at h
  cases h with
  | outside h =>
    subst htodo
    refine .inr ⟨rfl, h st (by simp), fun sts hsts => .outside fun st' hst' => ?_⟩
    rcases List.mem_append.mp hst' with hst' | hst'
    · exact hsts st' hst'
    · exact h st' (List.mem_cons_of_mem _ hst')
  | before h => exact absurd (List.cons.inj htodo).1 he
  | @inside sts h =>
    cases sts with
    | nil => exact absurd (List.cons.inj htodo).1 hl
    | cons st' sts =>
      obtain ⟨rfl, rfl⟩ := List.cons.inj htodo
      refine .inl ⟨rfl, h st (by simp), fun sts' hsts' => ?_⟩
      show Shape (sts' ++ (sts ++ [.leave])) 1
      rw [← List.append_assoc]
      refine .inside fun st' hst' => ?_
      rcases List.mem_append.mp hst' with hst' | hst'
      · exact hsts' st' hst'
      · exact h st' (List.mem_cons_of_mem _ hst')

/-! ## The invariant -/

/-- The heap gives a `PER_SOCKET_CONTEXT` whenever it is asked for one. -/
def Action.GivesSocketContext : Action ι → Prop
  | .step _ (.heap x) => x ≠ .noSocketContext
  | _ => True

/-- **A step of a thread**, seen from its innermost call: it returns, goes on in step with the lock,
calls another function, or gives up inside the critical section. -/
theorem ThreadStep.top {todo : List Statement} {d : ℕ} {frames' : List Frame} {l : RecursiveLock ι}
    (h : ThreadStep s i (⟨e, todo⟩ :: fs) ans l frames') (hs : Shape todo d) :
    (d = 0 ∧ frames' = fs ∧ l.recursion i = s.lock.recursion i) ∨
    (∃ todo' d', frames' = ⟨e, todo'⟩ :: fs ∧ Shape todo' d' ∧
      l.recursion i + d = s.lock.recursion i + d') ∨
    (∃ f todo', frames' = ⟨s.lock.recursion i, Procedure.body f⟩ :: ⟨e, todo'⟩ :: fs ∧
      Shape todo' d ∧ l.recursion i = s.lock.recursion i) ∨
    (d = 1 ∧ frames' = ⟨e, []⟩ :: fs ∧ l.recursion i = s.lock.recursion i ∧
      ans = .heap .noSocketContext) := by
  cases h with
  | ret => exact .inl ⟨hs.nil, rfl, rfl⟩
  | enter hl =>
    obtain ⟨rfl, hs'⟩ := hs.enter
    have := RecursiveLock.recursion_enter hl i
    rw [if_pos rfl] at this
    exact .inr (.inl ⟨_, 1, rfl, hs', by omega⟩)
  | leave hl =>
    obtain ⟨rfl, hs'⟩ := hs.leave
    have := RecursiveLock.recursion_leave hl i
    rw [if_pos rfl] at this
    exact .inr (.inl ⟨_, 0, rfl, hs', by omega⟩)
  | call =>
    refine .inr (.inr (.inl ⟨_, _, rfl, ?_, rfl⟩))
    rcases hs.cons nofun nofun with ⟨rfl, -, h⟩ | ⟨rfl, -, h⟩ <;> exact h [] nofun
  | @next _ st _ _ _ _ _ _ _ ho hsts =>
    refine .inr (.inl ⟨_, d, rfl, ?_, rfl⟩)
    have hne : st ≠ .enter ∧ st ≠ .leave := by
      constructor <;> rintro rfl <;> cases ho
    rcases hs.cons hne.1 hne.2 with ⟨rfl, hst, h⟩ | ⟨rfl, hst, h⟩
    · rcases Statement.exec_locked ho hst with ⟨sts', h', hall⟩ | ⟨h', -⟩
      · obtain rfl := Option.some.inj (h'.symm.trans hsts)
        exact h _ hall
      · rw [h'] at hsts
        cases hsts
    · exact h _ (Statement.exec_unlocked ho hst hsts)
  | @exit _ st _ _ _ _ _ _ ho hnone =>
    have hne : st ≠ .enter ∧ st ≠ .leave := by
      constructor <;> rintro rfl <;> cases ho
    rcases hs.cons hne.1 hne.2 with ⟨rfl, hst, h⟩ | ⟨rfl, hst, h⟩
    · rcases Statement.exec_locked ho hst with ⟨sts', h', -⟩ | ⟨-, rfl⟩
      · rw [hnone] at h'
        cases h'
      · exact .inr (.inr (.inr ⟨rfl, rfl, rfl, rfl⟩))
    · exact .inr (.inl ⟨[], 0, rfl, .outside nofun, rfl⟩)

theorem ThreadStep.frames {frames frames' : List Frame} {l : RecursiveLock ι}
    (h : ThreadStep s i frames ans l frames') : ∃ e todo fs, frames = ⟨e, todo⟩ :: fs := by
  cases h <;> exact ⟨_, _, _, rfl⟩

/-- Unless `CtxtAllocate` gives up inside the critical section, the calls of the thread go on to
account for its recursion count. -/
theorem ThreadStep.nested {frames frames' : List Frame} {l : RecursiveLock ι}
    (h : ThreadStep s i frames ans l frames') (hn : Nested frames (s.lock.recursion i))
    (hC : Action.GivesSocketContext (.step i ans)) : Nested frames' (l.recursion i) := by
  obtain ⟨e, todo, fs, rfl⟩ := h.frames
  obtain ⟨d, hs, hfs, hd⟩ := hn.cons_inv
  rcases h.top hs with ⟨rfl, rfl, hl⟩ | ⟨todo', d', rfl, hs', hl⟩ | ⟨f, todo', rfl, hs', hl⟩ |
    ⟨-, -, -, rfl⟩
  · rw [hl, hd]
    exact hfs
  · rw [show l.recursion i = e + d' by omega]
    exact .cons hs' hfs
  · rw [hl]
    exact .cons f.body_shape (hd ▸ .cons hs' hfs)
  · exact absurd rfl hC

namespace Threads

/-- The invariant of the runs in which no `PER_SOCKET_CONTEXT` is missing. -/
structure Inv (s : Threads ι) : Prop where
  nested : ∀ i, Nested (s.thread i).frames (s.lock.recursion i)
  criticalSection : s.g.criticalSection = s.lock.count

/-- Every call that is about to return has the recursion count it was made with; the lock is free
while no thread is in one of the functions; and a thread that waits for the lock waits for another
thread in one of them. -/
structure Balanced (s : Threads ι) : Prop where
  returns : ∀ i e fs, (s.thread i).frames = ⟨e, []⟩ :: fs → s.lock.recursion i = e
  free : (∀ i, (s.thread i).frames = []) → s.lock = .free
  enters : ∀ i, s.lock.enter i = none → ∃ j, j ≠ i ∧ (s.thread j).frames ≠ []

theorem Inv.balanced (h : Inv s) : Balanced s where
  returns i e fs hi := by
    have hn := h.nested i
    rw [hi] at hn
    obtain ⟨d, hs, -, hd⟩ := hn.cons_inv
    rw [hd, hs.nil]
    rfl
  free hidle := by
    rw [RecursiveLock.eq_free_iff]
    intro i
    have hn := h.nested i
    rw [hidle i] at hn
    generalize s.lock.recursion i = n at hn
    cases hn
    rfl
  enters i hi := by
    by_contra hidle
    push Not at hidle
    rw [← Option.not_isSome_iff_eq_none, RecursiveLock.enter_isSome_iff] at hi
    refine hi fun j hj => ?_
    have hn := h.nested j
    rw [hidle j hj] at hn
    generalize s.lock.recursion j = n at hn
    cases hn
    rfl

/-- The other threads keep their recursion counts. -/
theorem recursion_others {frames frames' : List Frame} {l : RecursiveLock ι} {j : ι}
    (h : ThreadStep s i frames ans l frames') (hj : j ≠ i) :
    l.recursion j = s.lock.recursion j := by
  cases h with
  | enter hl => rw [RecursiveLock.recursion_enter hl, if_neg hj, Nat.add_zero]
  | leave hl =>
    have := RecursiveLock.recursion_leave hl j
    rwa [if_neg hj, Nat.add_zero] at this
  | _ => rfl

/-- The step of a thread, by its innermost call. -/
theorem step_cases (h : s.step (.step i ans) = some s') : ∃ e todo fs,
    (s.thread i).frames = ⟨e, todo⟩ :: fs ∧
      s.advance i e fs (s.thread i).result ans todo = some s' := by
  simp only [step] at h
  split at h
  · cases h
  · exact ⟨_, _, _, ‹_›, h⟩

theorem Inv.step {a : Action ι} (h : Inv s) (hs : s.step a = some s')
    (hC : a.GivesSocketContext) : Inv s' := by
  cases a with
  | call i f =>
    obtain ⟨hi, hs⟩ := Option.ite_none_right_eq_some.mp hs
    obtain rfl := Option.some.inj hs
    refine ⟨fun j => ?_, h.criticalSection⟩
    by_cases hj : j = i
    · subst hj
      rw [put_self]
      have hn := h.nested j
      rw [hi] at hn
      exact .cons f.body_shape hn
    · rw [put_of_ne hj]
      exact h.nested j
  | step i ans =>
    obtain ⟨e, todo, fs, hi, hs⟩ := step_cases hs
    obtain ⟨hothers, hstep, hc⟩ := advance_cases hs
    refine ⟨fun j => ?_, hc h.criticalSection⟩
    by_cases hj : j = i
    · subst hj
      exact hstep.nested (hi ▸ h.nested j) hC
    · rw [hothers j hj, recursion_others hstep hj]
      exact h.nested j
  | program g =>
    obtain ⟨hg, hs⟩ := Option.ite_none_right_eq_some.mp hs
    obtain rfl := Option.some.inj hs
    exact ⟨h.nested, hg.trans h.criticalSection⟩

/-- `CtxtAllocate` without memory for the socket context returns inside the critical section. -/
theorem Inv.leaks (h : Inv s) (hs : s.step (.step i (.heap .noSocketContext)) = some s') :
    ∃ e fs, (s'.thread i).frames = ⟨e, []⟩ :: fs ∧ Nested fs e ∧ s'.lock.recursion i = e + 1 := by
  obtain ⟨e, todo, fs, hi, hs⟩ := step_cases hs
  obtain ⟨-, hstep, -⟩ := advance_cases hs
  have hn := h.nested i
  rw [hi] at hn
  obtain ⟨d, hshape, hfs, hd⟩ := hn.cons_inv
  generalize (s'.thread i).frames = frames' at hstep
  generalize s'.lock = l at hstep
  -- no other statement takes an answer of the heap
  cases hstep with
  | @next _ st _ _ _ _ _ o _ ho hsts =>
    cases st <;> try cases (show none = some o from ho)
    obtain rfl := Option.some.inj ho
    cases hsts
  | @exit _ st _ _ _ _ _ o ho hnone =>
    cases st <;> try cases (show none = some o from ho)
    rcases hshape.cons nofun nofun with ⟨rfl, -⟩ | ⟨-, hst, -⟩
    · exact ⟨e, fs, rfl, hfs, hd⟩
    · cases hst

theorem Inv.gives {a : Action ι} (h : Inv s) (hs : s.step a = some s') (hP : Balanced s') :
    a.GivesSocketContext := by
  cases a with
  | step i ans =>
    cases ans with
    | heap x =>
      rintro rfl
      obtain ⟨e, fs, hi, -, hl⟩ := h.leaks hs
      have := hP.returns i e fs hi
      omega
    | _ => trivial
  | call i f => trivial
  | program g => trivial

theorem inv_initial (g : Globals) : Inv (initial g : Threads ι) :=
  ⟨fun _ => .nil, rfl⟩

/-- **Balanced, exactly if no socket context is missing.** From any data and with any calls of any
threads, every call returns with the recursion count it was made with, the lock is free while no
thread is in one of the functions, and only a thread in one of them keeps another waiting, exactly if
no `xmalloc` of a `PER_SOCKET_CONTEXT` fails in the run. -/
theorem lock_balanced_iff (g : Globals) (actions : List (Action ι)) :
    (machine ι).Always Balanced (initial g) actions ↔
      (machine ι).AllSteps (fun _ a => a.GivesSocketContext) (initial g) actions :=
  Machine.always_iff_allSteps (fun _ h => h.balanced) (fun _ _ _ h hs hC => h.step hs hC)
    (fun _ _ _ h hs hP => h.gives hs hP) (inv_initial g) actions

/-- `CtxtAllocate` finds no memory for a socket context, and returns: no thread is in one of the
functions, but the lock is held, and another thread's `CtxtListFree` waits. -/
theorem lock_leaked : ∃ s : Threads Bool, (machine Bool).run (initial .initial)
    [.call true (.ctxtAllocate (some 0) .clientIoAccept), .step true .none,
      .step true (.heap .noSocketContext), .step true .none] = some s ∧
    (∀ i, (s.thread i).frames = []) ∧ s.lock.enter false = none ∧ ¬ Balanced s := by
  refine ⟨_, rfl, fun i => by cases i <;> rfl, rfl, fun h => ?_⟩
  cases h.free fun i => by cases i <;> rfl

/-! ## The lock is lost -/

/-- What the calls of a thread have still to leave. -/
inductive Pending : List Frame → ℕ → Prop
  | nil : Pending [] 0
  | cons {e todo fs n d} (hs : Shape todo d) (h : Pending fs n) : Pending (⟨e, todo⟩ :: fs) (n + d)

/-- The thread `i` has entered the lock more often than it is going to leave it. -/
def Lost (s : Threads ι) (i : ι) : Prop :=
  ∃ n, Pending (s.thread i).frames n ∧ n < s.lock.recursion i

/-- No step makes up for it. -/
theorem Lost.step {a : Action ι} (h : s.Lost i) (hs : s.step a = some s') : s'.Lost i := by
  obtain ⟨n, hn, hlt⟩ := h
  cases a with
  | call j f =>
    obtain ⟨hj, hs⟩ := Option.ite_none_right_eq_some.mp hs
    obtain rfl := Option.some.inj hs
    by_cases hij : i = j
    · subst hij
      rw [hj] at hn
      refine ⟨n, ?_, hlt⟩
      rw [put_self]
      exact .cons f.body_shape hn
    · refine ⟨n, ?_, hlt⟩
      rwa [put_of_ne hij]
  | step j ans =>
    obtain ⟨e, todo, fs, hj, hs⟩ := step_cases hs
    obtain ⟨hothers, hstep, -⟩ := advance_cases hs
    by_cases hij : i = j
    · subst hij
      rw [hj] at hn
      cases hn with
      | @cons _ _ _ m d hshape hfs =>
        rcases hstep.top hshape with ⟨rfl, hfr, hl⟩ | ⟨todo', d', hfr, hs', hl⟩ |
          ⟨f, todo', hfr, hs', hl⟩ | ⟨rfl, hfr, hl, -⟩
        · exact ⟨m, hfr ▸ hfs, by omega⟩
        · exact ⟨m + d', hfr ▸ .cons hs' hfs, by omega⟩
        · exact ⟨m + d + 0, hfr ▸ .cons f.body_shape (.cons hs' hfs), by omega⟩
        · exact ⟨m + 0, hfr ▸ .cons (.outside nofun) hfs, by omega⟩
    · refine ⟨n, ?_, ?_⟩
      · rwa [hothers i hij]
      · rwa [recursion_others hstep hij]
  | program g =>
    obtain ⟨-, hs⟩ := Option.ite_none_right_eq_some.mp hs
    obtain rfl := Option.some.inj hs
    exact ⟨n, hn, hlt⟩

/-- **One failed allocation blocks the others for ever.** In no continuation of the run does another
thread enter the lock. -/
theorem Lost.enter (h : s.Lost i) : ∀ as : List (Action ι), (machine ι).run s as = some s' →
    ∀ j, j ≠ i → s'.lock.enter j = none := by
  intro as
  induction as generalizing s with
  | nil =>
    intro hs j hj
    obtain rfl := Option.some.inj hs
    obtain ⟨n, -, hlt⟩ := h
    exact RecursiveLock.enter_eq_none (by omega) hj
  | cons a as ih =>
    intro hs
    obtain ⟨t, ht, hs⟩ := Option.bind_eq_some_iff.mp hs
    exact ih (h.step ht) hs

theorem pending_of_nested {frames : List Frame} {n : ℕ} (h : Nested frames n) :
    Pending frames n := by
  induction h with
  | nil => exact .nil
  | cons hs _ ih => exact .cons hs ih

/-- Every failed allocation of a socket context loses the lock. -/
theorem Inv.lost (h : Inv s) (hs : s.step (.step i (.heap .noSocketContext)) = some s') :
    s'.Lost i := by
  obtain ⟨e, fs, hi, hfs, hl⟩ := h.leaks hs
  exact ⟨e + 0, hi ▸ .cons (.outside nofun) (pending_of_nested hfs), by omega⟩

end Threads

/-! ## The functions in one step -/

section Alone

variable {g g' : Globals} {l l' : RecursiveLock ι} {todo : List Statement} {a : Addr}

namespace Threads

theorem put_put (t t' : Thread) : (s.put i g l t).put i g' l' t' = s.put i g' l' t' := by
  simp only [put, Function.update_idem]

theorem leads_of_advance (ans : Answer) {t' : Thread}
    (h : (s.put i g l ⟨⟨e, todo⟩ :: fs, r⟩).advance i e fs r ans todo =
      some ((s.put i g l ⟨⟨e, todo⟩ :: fs, r⟩).put i g' l' t')) :
    (machine ι).Leads (s.put i g l ⟨⟨e, todo⟩ :: fs, r⟩) (s.put i g' l' t') := by
  refine .of_step (a := .step i ans) ?_
  rw [← put_put (s := s) (g := g) (l := l) ⟨⟨e, todo⟩ :: fs, r⟩ t', ← h]
  simp only [machine, step, put_self]

/-- A call of a function with a critical section, by a thread that can enter it. -/
theorem leads_call {f : Procedure} {body : List Statement} (hf : f.body = .enter :: body)
    (hl : l.enter i = some l') :
    (machine ι).Leads (s.put i g l ⟨⟨e, .call f :: todo⟩ :: fs, r⟩)
      (s.put i g.enter l' ⟨⟨l.recursion i, body⟩ :: ⟨e, todo⟩ :: fs, r⟩) := by
  have hcall : (machine ι).Leads (s.put i g l ⟨⟨e, .call f :: todo⟩ :: fs, r⟩)
      (s.put i g l ⟨⟨l.recursion i, f.body⟩ :: ⟨e, todo⟩ :: fs, r⟩) :=
    leads_of_advance .none rfl
  refine hcall.trans ?_
  rw [hf]
  refine leads_of_advance .none ?_
  show (l.enter i).map _ = _
  rw [hl]
  rfl

/-- The end of such a function. -/
theorem leads_leave (hl : l.enter i = some l') :
    (machine ι).Leads (s.put i g l' ⟨⟨e, [.leave]⟩ :: fs, r⟩) (s.put i g.leave l ⟨fs, r⟩) := by
  have hret : (machine ι).Leads (s.put i g.leave l ⟨⟨e, []⟩ :: fs, r⟩)
      (s.put i g.leave l ⟨fs, r⟩) := leads_of_advance .none rfl
  refine .trans (leads_of_advance .none ?_) hret
  show (l'.leave i).map _ = _
  rw [RecursiveLock.leave_of_enter hl]
  rfl

/-- A statement that goes on with the next one. -/
theorem leads_exec (ans : Answer) {st : Statement} {r' : Option Addr}
    (h : st.exec g r ans = some ⟨g', r', some []⟩) :
    (machine ι).Leads (s.put i g l ⟨⟨e, st :: todo⟩ :: fs, r⟩)
      (s.put i g' l ⟨⟨e, todo⟩ :: fs, r'⟩) := by
  refine leads_of_advance ans ?_
  cases st with
  | enter | leave | call => cases h
  | _ =>
    show (Statement.exec g r _ ans).map _ = _
    rw [h]
    rfl

/-- `CtxtAllocate`, unless it gives up inside the critical section. -/
theorem leads_ctxtAllocate {sd : Option Socket} {clientIo : IoOperation} {x : Allocation}
    (hl : l.enter i = some l') (hx : x.fresh g = true) (hne : x ≠ .noSocketContext) :
    (machine ι).Leads (s.put i g l ⟨⟨e, .call (.ctxtAllocate sd clientIo) :: todo⟩ :: fs, r⟩)
      (s.put i (ctxtAllocate sd clientIo x g).1 l
        ⟨⟨e, todo⟩ :: fs, (ctxtAllocate sd clientIo x g).2⟩) := by
  cases x with
  | noSocketContext => exact absurd rfl hne
  | ok b =>
    refine (leads_call rfl hl).trans (.trans (leads_exec (.heap (.ok b)) ?_) (leads_leave hl))
    exact if_pos hx
  | noIoContext b =>
    refine (leads_call rfl hl).trans
      (.trans (leads_exec (.heap (.noIoContext b)) ?_) (leads_leave hl))
    exact if_pos hx

/-- `CtxtListAddTo`. -/
theorem leads_ctxtListAddTo (hl : l.enter i = some l') :
    (machine ι).Leads (s.put i g l ⟨⟨e, .call (.ctxtListAddTo a) :: todo⟩ :: fs, r⟩)
      (s.put i (ctxtListAddTo a g) l ⟨⟨e, todo⟩ :: fs, r⟩) :=
  (leads_call rfl hl).trans (.trans (leads_exec .none rfl) (leads_leave hl))

/-- `CtxtListDeleteFrom`. -/
theorem leads_ctxtListDeleteFrom (hl : l.enter i = some l')
    (h : ctxtListDeleteFrom a g = some g') :
    (machine ι).Leads
      (s.put i g l ⟨⟨e, .call (.ctxtListDeleteFrom (some a)) :: todo⟩ :: fs, r⟩)
      (s.put i g' l ⟨⟨e, todo⟩ :: fs, r⟩) := by
  obtain ⟨hio, h⟩ := Option.ite_none_right_eq_some.mp h
  obtain rfl := Option.some.inj h
  refine (leads_call rfl hl).trans (.trans (leads_exec .none rfl) ?_)
  refine .trans (leads_exec .none (if_pos ?_)) (leads_leave hl)
  rw [ctxtListRelink_bEndServer, ctxtListRelink_pIOContext]
  exact hio

/-- `CloseClient`, which holds the lock as it calls `CtxtListDeleteFrom`. -/
theorem leads_closeClient (hl : l.enter i = some l') (h : closeClient a g = some g') :
    (machine ι).Leads (s.put i g l ⟨⟨e, .call (.closeClient (some a)) :: todo⟩ :: fs, r⟩)
      (s.put i g' l ⟨⟨e, todo⟩ :: fs, r⟩) := by
  unfold closeClient at h
  cases hio : g.io a with
  | none =>
    rw [hio] at h
    cases h
  | some io =>
    rw [hio] at h
    obtain ⟨g₁, hg₁, rfl⟩ := Option.map_eq_some_iff.mp h
    obtain ⟨l'', hl''⟩ : ∃ l'', l'.enter i = some l'' := by
      rcases RecursiveLock.enter_cases hl with ⟨-, rfl⟩ | ⟨n, -, rfl⟩ <;> exact ⟨_, if_pos rfl⟩
    have hclose : (Statement.closeSockets a).exec g.enter r .none =
        some ⟨g.closeSockets a io, r, some []⟩ := by
      show (g.io a).map _ = _
      rw [hio]
      rfl
    exact (leads_call rfl hl).trans (.trans (leads_exec .none hclose)
      (.trans (leads_ctxtListDeleteFrom hl'' hg₁) (leads_leave hl)))

end Threads

end Alone

end SelfStudy.Iocp.Locking
