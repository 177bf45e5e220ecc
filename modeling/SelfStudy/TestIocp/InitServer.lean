import SelfStudy.TestIocp.Server

/-!
# `initServer`

The start and the end of `test_iocp_demo`: `initServer` and what the demo does with its answer. Every
call of the system is written to a log together with its answer, and the answers are the argument.
What is open, bound, listening or associated at some moment is read off the log up to there.

`initServer` reports a failure through `ret`, which only `WSAStartup`, `bind` and `listen` set. The
line that should repair this, `if (ret == 0) ret == -1;`, compares and throws the result away.
-/

namespace SelfStudy.TestIocp

/-! ## The function -/

/-- `INVALID_SOCKET` and `NULL` are `none`. -/
structure ServerParams where
  listenSocket : Option ℕ
  completionPort : Option ℕ
  deriving DecidableEq, Repr

inductive SystemCall
  | wsaStartup (ret : ℤ)
  | wsaSocket (s : Option ℕ)
  | bind (s : Option ℕ) (ret : ℤ)
  | listen (s : Option ℕ) (ret : ℤ)
  | createPort (h : Option ℕ)
  | associate (s h : Option ℕ) (ok : Bool)
  | closeHandle (h : Option ℕ)
  | closesocket (s : Option ℕ)
  | wsaCleanup
  | createThread (pms : ServerParams)
  | postAcceptEx (s : Option ℕ)
  deriving DecidableEq, Repr

structure Answers where
  wsaStartup : ℤ
  wsaSocket : Option ℕ
  bind : ℤ
  listen : ℤ
  createPort : Option ℕ
  associate : Bool
  deriving DecidableEq, Repr

/-- What `initServer` returns, with the parameters it has written and its calls. -/
structure InitResult where
  ret : ℤ
  params : ServerParams
  log : List SystemCall
  deriving DecidableEq, Repr

def initServer (o : Answers) (pms : ServerParams) : InitResult := Id.run do
  let mut params := pms
  let mut ret := o.wsaStartup
  let mut log := [.wsaStartup ret]
  if ret = 0 then
    params := { params with listenSocket := o.wsaSocket }
    log := log ++ [.wsaSocket params.listenSocket]
    if params.listenSocket ≠ none then
      ret := o.bind
      log := log ++ [.bind params.listenSocket ret]
      if ret = 0 then
        ret := o.listen
        log := log ++ [.listen params.listenSocket ret]
        if ret = 0 then
          params := { params with completionPort := o.createPort }
          log := log ++ [.createPort params.completionPort]
          if params.completionPort ≠ none then
            log := log ++ [.associate params.listenSocket params.completionPort o.associate]
            if o.associate then
              return ⟨0, params, log⟩
            log := log ++ [.closeHandle params.completionPort]
    log := log ++ [.closesocket params.listenSocket]
  log := log ++ [.wsaCleanup]
  -- `if (ret == 0) ret == -1;` has no effect
  return ⟨ret, params, log⟩

def threadCount : ℕ := 4

/-- The calls of `test_iocp_demo`, up to its end. -/
def testIocpDemo (o : Answers) (pms : ServerParams) : List SystemCall :=
  let r := initServer o pms
  if r.ret ≠ 0 then r.log
  else r.log ++ (List.replicate threadCount (.createThread r.params) ++
    (List.replicate startPostAcceptEx (.postAcceptEx r.params.listenSocket) ++
      [.closesocket r.params.listenSocket, .closeHandle r.params.completionPort, .wsaCleanup]))

/-! ## The runs of `initServer` -/

/-- The runs, by the call that fails first. -/
inductive InitRun (o : Answers) (pms : ServerParams) : InitResult → Prop
  | startup (h0 : o.wsaStartup ≠ 0) :
    InitRun o pms ⟨o.wsaStartup, pms, [.wsaStartup o.wsaStartup, .wsaCleanup]⟩
  | socket (h0 : o.wsaStartup = 0) (hs : o.wsaSocket = none) :
    InitRun o pms ⟨0, ⟨none, pms.completionPort⟩,
      [.wsaStartup 0, .wsaSocket none, .closesocket none, .wsaCleanup]⟩
  | bind {s} (h0 : o.wsaStartup = 0) (hs : o.wsaSocket = some s) (hb : o.bind ≠ 0) :
    InitRun o pms ⟨o.bind, ⟨some s, pms.completionPort⟩,
      [.wsaStartup 0, .wsaSocket (some s), .bind (some s) o.bind, .closesocket (some s),
        .wsaCleanup]⟩
  | listen {s} (h0 : o.wsaStartup = 0) (hs : o.wsaSocket = some s) (hb : o.bind = 0)
    (hl : o.listen ≠ 0) :
    InitRun o pms ⟨o.listen, ⟨some s, pms.completionPort⟩,
      [.wsaStartup 0, .wsaSocket (some s), .bind (some s) 0, .listen (some s) o.listen,
        .closesocket (some s), .wsaCleanup]⟩
  | port {s} (h0 : o.wsaStartup = 0) (hs : o.wsaSocket = some s) (hb : o.bind = 0)
    (hl : o.listen = 0) (hp : o.createPort = none) :
    InitRun o pms ⟨0, ⟨some s, none⟩,
      [.wsaStartup 0, .wsaSocket (some s), .bind (some s) 0, .listen (some s) 0, .createPort none,
        .closesocket (some s), .wsaCleanup]⟩
  | association {s h} (h0 : o.wsaStartup = 0) (hs : o.wsaSocket = some s) (hb : o.bind = 0)
    (hl : o.listen = 0) (hp : o.createPort = some h) (ha : o.associate = false) :
    InitRun o pms ⟨0, ⟨some s, some h⟩,
      [.wsaStartup 0, .wsaSocket (some s), .bind (some s) 0, .listen (some s) 0,
        .createPort (some h), .associate (some s) (some h) false, .closeHandle (some h),
        .closesocket (some s), .wsaCleanup]⟩
  | success {s h} (h0 : o.wsaStartup = 0) (hs : o.wsaSocket = some s) (hb : o.bind = 0)
    (hl : o.listen = 0) (hp : o.createPort = some h) (ha : o.associate = true) :
    InitRun o pms ⟨0, ⟨some s, some h⟩,
      [.wsaStartup 0, .wsaSocket (some s), .bind (some s) 0, .listen (some s) 0,
        .createPort (some h), .associate (some s) (some h) true]⟩

theorem initServer_run (o : Answers) (pms : ServerParams) : InitRun o pms (initServer o pms) := by
  by_cases h0 : o.wsaStartup = 0
  · cases hs : o.wsaSocket with
    | none => simpa [initServer, h0, hs] using InitRun.socket h0 hs
    | some s =>
      by_cases hb : o.bind = 0
      · by_cases hl : o.listen = 0
        · cases hp : o.createPort with
          | none => simpa [initServer, h0, hs, hb, hl, hp] using InitRun.port h0 hs hb hl hp
          | some h =>
            cases ha : o.associate with
            | false =>
              simpa [initServer, h0, hs, hb, hl, hp, ha] using
                InitRun.association h0 hs hb hl hp ha
            | true =>
              simpa [initServer, h0, hs, hb, hl, hp, ha] using InitRun.success h0 hs hb hl hp ha
        · simpa [initServer, h0, hs, hb, hl] using InitRun.listen h0 hs hb hl
      · simpa [initServer, h0, hs, hb] using InitRun.bind h0 hs hb
  · simpa [initServer, h0] using InitRun.startup h0

/-! ## What is open -/

@[mk_iff] structure OpenSocket (log : List SystemCall) (s : Option ℕ) : Prop where
  valid : s ≠ none
  opened : .wsaSocket s ∈ log
  notClosed : .closesocket s ∉ log
  notCleaned : .wsaCleanup ∉ log

@[mk_iff] structure OpenPort (log : List SystemCall) (h : Option ℕ) : Prop where
  valid : h ≠ none
  opened : .createPort h ∈ log
  notClosed : .closeHandle h ∉ log

/-- The server can serve: the listening socket is open, bound, listening and associated with the
completion port, which is open. -/
@[mk_iff] structure Ready (log : List SystemCall) (pms : ServerParams) : Prop where
  socket : OpenSocket log pms.listenSocket
  bound : .bind pms.listenSocket 0 ∈ log
  listening : .listen pms.listenSocket 0 ∈ log
  port : OpenPort log pms.completionPort
  associated : .associate pms.listenSocket pms.completionPort true ∈ log

/-- Everything opened has been closed once, and Winsock is cleaned up if it was started. -/
structure Released (log : List SystemCall) : Prop where
  sockets : ∀ s, log.count (.closesocket (some s)) = log.count (.wsaSocket (some s))
  ports : ∀ h, log.count (.closeHandle (some h)) = log.count (.createPort (some h))
  cleanup : log.count .wsaCleanup = log.count (.wsaStartup 0)

/-- The call uses and closes open handles only. -/
def SystemCall.Allowed (done : List SystemCall) : SystemCall → Prop
  | .bind s _ | .listen s _ | .postAcceptEx s => OpenSocket done s
  | .associate s h _ => OpenSocket done s ∧ OpenPort done h
  | .closesocket s => s ≠ none → OpenSocket done s
  | .closeHandle h => h ≠ none → OpenPort done h
  | .createThread pms => OpenSocket done pms.listenSocket ∧ OpenPort done pms.completionPort
  | _ => True

/-- Every call, in its turn, is allowed. -/
def Disciplined (done : List SystemCall) : List SystemCall → Prop
  | [] => True
  | c :: log => c.Allowed done ∧ Disciplined (done ++ [c]) log

/-- What `initServer` owes its caller, and what `test_iocp_demo` makes of it. -/
structure InitServerCorrect (o : Answers) (pms : ServerParams) : Prop where
  ret_eq_zero : (initServer o pms).ret = 0 ↔ Ready (initServer o pms).log (initServer o pms).params
  failed : ¬ Ready (initServer o pms).log (initServer o pms).params →
    (initServer o pms).ret ≠ 0 ∧ Released (initServer o pms).log
  disciplined : Disciplined [] (testIocpDemo o pms)

/-! ## The demo -/

theorem disciplined_append {done l l' : List SystemCall} (h : Disciplined done l)
    (h' : Disciplined (done ++ l) l') : Disciplined done (l ++ l') := by
  induction l generalizing done with
  | nil => simpa using h'
  | cons c l ih =>
    refine ⟨h.1, ih h.2 ?_⟩
    rwa [List.append_assoc]

/-- A call that is allowed whenever `P`, and leaves `P` alone, may be repeated. -/
theorem disciplined_replicate {P : List SystemCall → Prop} {c : SystemCall}
    (hc : ∀ log, P log → c.Allowed log ∧ P (log ++ [c])) {done : List SystemCall} (h : P done)
    (n : ℕ) : Disciplined done (List.replicate n c) ∧ P (done ++ List.replicate n c) := by
  induction n generalizing done with
  | zero => exact ⟨trivial, by simpa using h⟩
  | succ n ih =>
    obtain ⟨hallowed, hP⟩ := hc done h
    obtain ⟨hrest, hend⟩ := ih hP
    rw [List.append_assoc] at hend
    exact ⟨⟨hallowed, hrest⟩, hend⟩

theorem OpenSocket.snoc {log : List SystemCall} {s : Option ℕ} {c : SystemCall}
    (h : OpenSocket log s) (hc : c ≠ .closesocket s) (hw : c ≠ .wsaCleanup) :
    OpenSocket (log ++ [c]) s where
  valid := h.valid
  opened := List.mem_append_left _ h.opened
  notClosed := by simpa [Ne.symm hc] using h.notClosed
  notCleaned := by simpa [Ne.symm hw] using h.notCleaned

theorem OpenPort.snoc {log : List SystemCall} {p : Option ℕ} {c : SystemCall}
    (h : OpenPort log p) (hc : c ≠ .closeHandle p) : OpenPort (log ++ [c]) p where
  valid := h.valid
  opened := List.mem_append_left _ h.opened
  notClosed := by simpa [Ne.symm hc] using h.notClosed

/-- From open handles on the demo uses and closes open handles only. -/
theorem disciplined_demo {log : List SystemCall} {pms : ServerParams}
    (hs : OpenSocket log pms.listenSocket) (hp : OpenPort log pms.completionPort) (n m : ℕ) :
    Disciplined log (List.replicate n (.createThread pms) ++
      (List.replicate m (.postAcceptEx pms.listenSocket) ++
        [.closesocket pms.listenSocket, .closeHandle pms.completionPort, .wsaCleanup])) := by
  obtain ⟨hthreads, hs₁, hp₁⟩ := disciplined_replicate (c := .createThread pms)
    (P := fun l => OpenSocket l pms.listenSocket ∧ OpenPort l pms.completionPort)
    (fun l h => ⟨h, h.1.snoc (by simp) (by simp), h.2.snoc (by simp)⟩) ⟨hs, hp⟩ n
  obtain ⟨hposts, hs₂, hp₂⟩ := disciplined_replicate (c := .postAcceptEx pms.listenSocket)
    (P := fun l => OpenSocket l pms.listenSocket ∧ OpenPort l pms.completionPort)
    (fun l h => ⟨h.1, h.1.snoc (by simp) (by simp), h.2.snoc (by simp)⟩) ⟨hs₁, hp₁⟩ m
  refine disciplined_append hthreads (disciplined_append hposts ?_)
  exact ⟨fun _ => hs₂, fun _ => hp₂.snoc (by simp), trivial, trivial⟩

/-! ## The failures that are reported -/

/-- The first call that fails, if there is one, is `bind` or `listen`. -/
def Reported (o : Answers) : Prop :=
  o.wsaStartup = 0 ∧ o.wsaSocket ≠ none ∧
    (o.bind ≠ 0 ∨ o.listen ≠ 0 ∨ o.createPort ≠ none ∧ o.associate = true)

theorem InitRun.reported {o : Answers} {pms : ServerParams} {r : InitResult}
    (h : InitRun o pms r) (hret : r.ret = 0 → Ready r.log r.params)
    (hfail : ¬ Ready r.log r.params → Released r.log) : Reported o := by
  cases h with
  | startup h0 =>
    -- `WSACleanup` without `WSAStartup`
    have hrel := (hfail fun h => by simpa using h.socket.opened).cleanup
    simp [h0] at hrel
  | socket => exact absurd rfl (hret rfl).socket.valid
  | bind h0 hs hb => exact ⟨h0, by simp [hs], .inl hb⟩
  | listen h0 hs hb hl => exact ⟨h0, by simp [hs], .inr (.inl hl)⟩
  | port => exact absurd rfl (hret rfl).port.valid
  | association => simpa using (hret rfl).associated
  | success h0 hs hb hl hp ha => exact ⟨h0, by simp [hs], .inr (.inr ⟨by simp [hp], ha⟩)⟩

/-- A run that fails in `bind` or `listen`, or not at all. -/
theorem InitRun.correct {o : Answers} {pms : ServerParams} {r : InitResult}
    (h : InitRun o pms r) (ho : Reported o) :
    (r.ret = 0 ∧ Ready r.log r.params ∨
      r.ret ≠ 0 ∧ ¬ Ready r.log r.params ∧ Released r.log) ∧ Disciplined [] r.log := by
  obtain ⟨hstartup, hsocket, hrest⟩ := ho
  cases h with
  | startup h0 => exact absurd hstartup h0
  | socket h0 hs => exact absurd hs hsocket
  | @bind s h0 hs hb =>
    refine ⟨.inr ⟨hb, fun h => by simpa using h.socket.notClosed, ?_, ?_, ?_⟩, ?_⟩
    · simp [List.count_cons]
    · simp
    · simp
    · simp [Disciplined, SystemCall.Allowed, openSocket_iff]
  | @listen s h0 hs hb hl =>
    refine ⟨.inr ⟨hl, fun h => by simpa using h.socket.notClosed, ?_, ?_, ?_⟩, ?_⟩
    · simp [List.count_cons]
    · simp
    · simp
    · simp [Disciplined, SystemCall.Allowed, openSocket_iff]
  | port h0 hs hb hl hp => simp [hb, hl, hp] at hrest
  | association h0 hs hb hl hp ha => simp [hb, hl, ha] at hrest
  | success h0 hs hb hl hp ha =>
    refine ⟨.inl ⟨rfl, ?_⟩, ?_⟩
    · simp [ready_iff, openSocket_iff, openPort_iff]
    · simp [Disciplined, SystemCall.Allowed, openSocket_iff, openPort_iff]

/-- **When `initServer` keeps its word.** It returns 0 exactly for a server that can serve, and
otherwise a non-zero value with everything released, so that `test_iocp_demo` works on open handles
only: exactly if no call before `bind` and none after `listen` fails first. -/
theorem initServer_correct_iff (o : Answers) (pms : ServerParams) :
    InitServerCorrect o pms ↔ Reported o := by
  have hrun := initServer_run o pms
  refine ⟨fun h => hrun.reported h.ret_eq_zero.mp fun hn => (h.failed hn).2, fun ho => ?_⟩
  obtain ⟨hres, hlog⟩ := hrun.correct ho
  rcases hres with ⟨hret, hready⟩ | ⟨hret, hready, hreleased⟩
  · refine ⟨iff_of_true hret hready, absurd hready, ?_⟩
    rw [testIocpDemo, if_neg (not_not.mpr hret)]
    exact disciplined_append hlog (disciplined_demo hready.socket hready.port _ _)
  · refine ⟨iff_of_false hret hready, fun _ => ⟨hret, hreleased⟩, ?_⟩
    rw [testIocpDemo, if_pos hret]
    exact hlog

/-- `WSASocket` fails: `initServer` returns 0 all the same, and the demo starts its workers. -/
theorem initServer_hides_failure :
    (initServer ⟨0, none, 0, 0, none, false⟩ ⟨none, none⟩).ret = 0 ∧
    .createThread ⟨none, none⟩ ∈ testIocpDemo ⟨0, none, 0, 0, none, false⟩ ⟨none, none⟩ ∧
    ¬ InitServerCorrect ⟨0, none, 0, 0, none, false⟩ ⟨none, none⟩ := by
  refine ⟨by decide, by decide, fun h => ?_⟩
  exact (h.ret_eq_zero.mp (by decide)).socket.valid rfl

end SelfStudy.TestIocp
