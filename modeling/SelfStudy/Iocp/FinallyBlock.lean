import SelfStudy.Iocp.Frame

/-!
# The end of the finally block

`main` behind the loop that posts the quit packets: the statements that close the listening socket,
the accept socket, the clients and the port. They work on the globals alone, so the runs of one
iteration and those of the restart loop share them.
-/

namespace SelfStudy.Iocp

/-- `main` after the loop that posts the quit packets, by the statement it is about to execute. -/
inductive FinallyPc
  | waitThreads
  | closeListen
  | awaitAccept
  | closeAccept (a : Addr)
  | ctxtListFree
  | closeNext (p : Option Addr)
  | closePort
  | finished
  deriving DecidableEq, Repr

/-- One step of `main` behind the wait. `CtxtListFree` stays in `g_CriticalSection` over its loop; it
gets in if nobody holds it, or if `main` itself does (`mainOwns`). -/
def FinallyPc.clean (mainOwns : Bool) (g : Globals) : FinallyPc → Option (Globals × FinallyPc)
  | .closeListen => some ((g.closesocket g.sdListen).setListen none, .awaitAccept)
  | .awaitAccept =>
    match g.pCtxtListenSocket with
    | .none => some (g, .ctxtListFree)
    | .some a => (g.io a).bind fun io =>
      if io.pending then none else some (g.touch a, .closeAccept a)
  | .closeAccept a =>
    (g.io a).map fun io =>
      ((((g.closesocket io.socketAccept).modifyIo a fun io =>
        { io with socketAccept := none }).free a).setCtxtListenSocket none, .ctxtListFree)
  | .ctxtListFree =>
    if g.criticalSection = 0 ∨ mainOwns = true then some (g.enter, .closeNext g.pCtxtList) else none
  | .closeNext p =>
    match p with
    | .none => some (g.leave, .closePort)
    | .some pTemp1 => (closeClient pTemp1 (g.touch pTemp1)).map fun g' =>
      (g', .closeNext (g.ctxt pTemp1).pCtxtBack)
  | .closePort => some (g.setIocp false, .finished)
  | .waitThreads | .finished => none

inductive CleanStep (g : Globals) : FinallyPc → Globals → FinallyPc → Prop
  | listenClosed : CleanStep g .closeListen ((g.closesocket g.sdListen).setListen none) .awaitAccept
  | noContext (h : g.pCtxtListenSocket = none) : CleanStep g .awaitAccept g .ctxtListFree
  | completed {a io} (h : g.pCtxtListenSocket = some a) (hio : g.io a = some io)
    (hp : io.pending = false) : CleanStep g .awaitAccept (g.touch a) (.closeAccept a)
  | acceptClosed {a io} (hio : g.io a = some io) :
    CleanStep g (.closeAccept a)
      ((((g.closesocket io.socketAccept).modifyIo a fun io =>
        { io with socketAccept := none }).free a).setCtxtListenSocket none) .ctxtListFree
  | entered : CleanStep g .ctxtListFree g.enter (.closeNext g.pCtxtList)
  | closed {a g'} (h : closeClient a (g.touch a) = some g') :
    CleanStep g (.closeNext (some a)) g' (.closeNext (g.ctxt a).pCtxtBack)
  | listFreed : CleanStep g (.closeNext none) g.leave .closePort
  | portClosed : CleanStep g .closePort (g.setIocp false) .finished

theorem FinallyPc.clean_cases {mainOwns : Bool} {g : Globals} {pc : FinallyPc}
    {q : Globals × FinallyPc} (h : pc.clean mainOwns g = some q) : CleanStep g pc q.1 q.2 := by
  cases pc with
  | closeListen => exact Option.some.inj h ▸ .listenClosed
  | awaitAccept =>
    cases hl : g.pCtxtListenSocket with
    | none =>
      simp only [clean, hl] at h
      exact Option.some.inj h ▸ .noContext hl
    | some a =>
      simp only [clean, hl] at h
      obtain ⟨io, hio, h⟩ := Option.bind_eq_some_iff.mp h
      obtain ⟨hp, h⟩ := Option.ite_none_left_eq_some.mp h
      exact Option.some.inj h ▸ .completed hl hio (by simpa using hp)
  | closeAccept a =>
    obtain ⟨io, hio, rfl⟩ := Option.map_eq_some_iff.mp h
    exact .acceptClosed hio
  | ctxtListFree =>
    obtain ⟨-, h⟩ := Option.ite_none_right_eq_some.mp h
    exact Option.some.inj h ▸ .entered
  | closeNext p =>
    cases p with
    | none => exact Option.some.inj h ▸ .listFreed
    | some a =>
      obtain ⟨g', hg, rfl⟩ := Option.map_eq_some_iff.mp h
      exact .closed hg
  | closePort => exact Option.some.inj h ▸ .portClosed
  | waitThreads | finished => cases h

end SelfStudy.Iocp
