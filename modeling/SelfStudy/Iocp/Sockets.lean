import SelfStudy.Iocp.Initialised
import SelfStudy.Lib.Holding

/-!
# Who owns a socket

A socket that `CreateSocket` has made is in `g_sdListen`, in `SocketAccept` of the listening context
or in the context of a client until it is closed. During an accept the listening context and the new
client both have it; from the allocation of the client until `CreateAcceptSocket` overwrites
`SocketAccept`, it belongs to the client. `Owns` is who is to close the socket. `SameSockets` says of
a step that it moves no socket, which is so of most statements of a worker.
-/

namespace SelfStudy.Iocp

open Lib Globals

/-- The heap gives both blocks of a context. -/
def Action.HeapOk : Action → Prop
  | .worker _ (.heap x) | .main (.heap x) => ∃ a, x = .ok a
  | _ => True

/-- Where a socket is kept; a client's context is named by its address. -/
inductive SocketRef
  | sdListen
  | socketAccept
  | socket (a : Addr)
  deriving DecidableEq, Repr

/-- The cases of an owner: nobody, or a reference. -/
theorem owner_cases {motive : Option SocketRef → Prop} (r : Option SocketRef) (none : motive none)
    (sdListen : motive (some .sdListen)) (socketAccept : motive (some .socketAccept))
    (socket : ∀ a, motive (some (.socket a))) : motive r := by
  cases r with
  | none => exact none
  | some r =>
    cases r with
    | sdListen => exact sdListen
    | socketAccept => exact socketAccept
    | socket a => exact socket a

namespace WorkerPc

/-- The worker is in the `ClientIoAccept` case. -/
def inAccept : WorkerPc → Bool
  | .setsockopt .. | .allocate .. | .associate .. | .addTo .. | .prepare .. | .acceptPost ..
  | .acceptClose _ | .acceptMessage _ | .createSocket | .acceptEx | .setEvent => true
  | _ => false

/-- The worker has given the accept socket to its new client and not replaced it yet. -/
def handedOver : WorkerPc → Bool
  | .associate .. | .addTo .. | .prepare .. | .acceptPost .. | .acceptClose _ | .acceptMessage _
  | .createSocket => true
  | _ => false

theorem handedOver_spec {pc : WorkerPc} (h : pc.handedOver = true) :
    pc.accepting = true ∧ pc.inAccept = true := by
  cases pc <;> first | exact ⟨rfl, rfl⟩ | cases h

end WorkerPc

namespace MainPc

/-- `main` has not made the listening socket yet. -/
def unlistened : MainPc → Bool
  | .createPort | .createThread _ | .getaddrinfo | .listenSocket => true
  | _ => false

/-- `main` has the listening context and has not made the first accept socket yet. -/
def unaccepted : MainPc → Bool
  | .ioctl | .createSocket => true
  | _ => false

/-- The statements of `main` that make a socket or hand on a context. -/
def movesSocket : MainPc → Bool
  | .listenSocket | .allocate | .associate _ | .createSocket => true
  | _ => false

end MainPc

namespace Globals

/-- `SocketAccept` of the listening context. -/
def acceptSocket (g : Globals) : Option Socket :=
  g.pCtxtListenSocket.bind fun a => (g.io a).bind PerIoContext.socketAccept

theorem acceptSocket_of_listening {g : Globals} {k : Addr} (h : g.pCtxtListenSocket = some k) :
    g.acceptSocket = (g.io k).bind PerIoContext.socketAccept := by
  rw [Globals.acceptSocket, h, Option.bind_some]

theorem acceptSocket_of_not_listening {g : Globals} (h : g.pCtxtListenSocket = none) :
    g.acceptSocket = none := by
  rw [Globals.acceptSocket, h]
  rfl

/-- Who is to close the socket, with `main` at `m`; a closed socket has the owner `none`. If `handed`,
the socket in `SocketAccept` belongs to a client. -/
def Owns (g : Globals) (m : MainPc) (handed : Prop) : Option SocketRef → Socket → Prop
  | none, sd => sd ∈ g.closed
  | some .sdListen, sd => g.sdListen = some sd
  | some .socketAccept, sd => ¬ handed ∧ g.acceptSocket = some sd
  | some (.socket a), sd => g.live a = true ∧ g.pCtxtListenSocket ≠ some a ∧ m ≠ .associate a ∧
    (g.ctxt a).socket = some sd

/-- No socket moves. -/
structure SameSockets (g g' : Globals) : Prop where
  sockets : g'.sockets = g.sockets
  closed : g'.closed = g.closed
  sdListen : g'.sdListen = g.sdListen
  pCtxtListenSocket : g'.pCtxtListenSocket = g.pCtxtListenSocket
  live : g'.live = g.live
  socket : ∀ a, (g'.ctxt a).socket = (g.ctxt a).socket
  accept : ∀ a, (g'.io a).bind PerIoContext.socketAccept =
    (g.io a).bind PerIoContext.socketAccept

section

variable {g g' g'' : Globals} {m m' : MainPc} {handed handed' : Prop} {a : Addr} {x : Socket}

theorem SameSockets.refl (g : Globals) : SameSockets g g := by
  constructor <;> intros <;> rfl

theorem SameSockets.trans (h : SameSockets g g') (h' : SameSockets g' g'') : SameSockets g g'' where
  sockets := h'.sockets.trans h.sockets
  closed := h'.closed.trans h.closed
  sdListen := h'.sdListen.trans h.sdListen
  pCtxtListenSocket := h'.pCtxtListenSocket.trans h.pCtxtListenSocket
  live := h'.live.trans h.live
  socket b := (h'.socket b).trans (h.socket b)
  accept b := (h'.accept b).trans (h.accept b)

theorem sameSockets_touch (a : Addr) : SameSockets g (g.touch a) := by
  constructor <;> intros <;> rfl

theorem sameSockets_modifyIo (a : Addr) {f : PerIoContext → PerIoContext}
    (hf : ∀ io, (f io).socketAccept = io.socketAccept) : SameSockets g (g.modifyIo a f) := by
  refine ⟨rfl, rfl, rfl, rfl, rfl, fun b => socket_modifyIo a b f, fun b => ?_⟩
  rw [io_modifyIo]
  split_ifs
  · cases g.io b with
    | none => rfl
    | some io => exact hf io
  · rfl

theorem SameSockets.acceptSocket (h : SameSockets g g') : g'.acceptSocket = g.acceptSocket := by
  unfold Globals.acceptSocket
  rw [h.pCtxtListenSocket]
  cases g.pCtxtListenSocket with
  | none => rfl
  | some a => exact h.accept a

/-- The owners are what they were, also if `main` goes on. -/
theorem SameSockets.owns (h : SameSockets g g') (hm : ∀ a, m' = .associate a ↔ m = .associate a)
    (ho : handed' ↔ handed) (r : Option SocketRef) (sd : Socket) :
    g'.Owns m' handed' r sd ↔ g.Owns m handed r sd := by
  cases r using owner_cases with
  | none => simp only [Owns, h.closed]
  | sdListen => simp only [Owns, h.sdListen]
  | socketAccept => simp only [Owns, h.acceptSocket, ho]
  | socket a =>
    simp only [Owns, h.live, h.pCtxtListenSocket, h.socket, ne_eq, hm]

theorem closeClient_sockets (h : closeClient a g = some g') :
    g'.sockets = g.sockets ∧ ∃ io, g.io a = some io ∧
      g'.closed = g.closed ++ io.socketAccept.toList ++ (g.ctxt a).socket.toList := by
  obtain ⟨io, hio, -, rfl⟩ := closeClient_cases h
  have hrelink : ∀ g₁ : Globals, (ctxtListRelink a g₁).sockets = g₁.sockets ∧
      (ctxtListRelink a g₁).closed = g₁.closed := by
    intro g₁
    unfold ctxtListRelink
    split <;> exact ⟨rfl, rfl⟩
  obtain ⟨hs, hc⟩ := hrelink ((g.closeSockets a io).enter.touch a)
  exact ⟨hs, io, hio, hc⟩

/-- Apart from the client `c` no socket moves. -/
structure ApartFrom (g g' : Globals) (c : Addr) : Prop where
  sockets : g'.sockets = g.sockets
  closed : g'.closed = g.closed
  sdListen : g'.sdListen = g.sdListen
  pCtxtListenSocket : g'.pCtxtListenSocket = g.pCtxtListenSocket
  live : ∀ b, b ≠ c → g'.live b = g.live b
  socket : ∀ b, b ≠ c → (g'.ctxt b).socket = (g.ctxt b).socket
  acceptSocket : g'.acceptSocket = g.acceptSocket

theorem ApartFrom.owns {c : Addr} (A : ApartFrom g g' c) {r : Option SocketRef}
    (h₁ : r ≠ some .socketAccept) (h₂ : r ≠ some (.socket c)) (sd : Socket) :
    g'.Owns m handed' r sd ↔ g.Owns m handed r sd := by
  cases r using owner_cases with
  | none => simp only [Owns, A.closed]
  | sdListen => simp only [Owns, A.sdListen]
  | socketAccept => exact absurd rfl h₁
  | socket b =>
    have hb : b ≠ c := fun e => h₂ (e ▸ rfl)
    simp only [Owns, A.live b hb, A.socket b hb, A.pCtxtListenSocket]

/-- **The accept socket is given to the new client `c`.** -/
theorem ApartFrom.share {c : Addr} (A : ApartFrom g g' c) (H : Holding g.sockets (g.Owns m handed))
    (hover : ¬ handed) (hover' : handed') (hl : g.live c = false)
    (hx : ∀ sd, g'.Owns m handed' (some (.socket c)) sd ↔ g.acceptSocket = some sd) :
    Holding g'.sockets (g'.Owns m handed') := by
  rw [A.sockets]
  have hsrc : ∀ sd, g.Owns m handed (some .socketAccept) sd ↔ g.acceptSocket = some sd :=
    fun sd => and_iff_right hover
  have hsrc' : ∀ sd, ¬ g'.Owns m handed' (some .socketAccept) sd := fun sd h => h.1 hover'
  have hdst : ∀ sd, ¬ g.Owns m handed (some (.socket c)) sd := by
    rintro sd ⟨hlive, -⟩
    rw [hl] at hlive
    cases hlive
  exact H.give _ hsrc hsrc' (fun sd => (hx sd).trans (or_iff_right (hdst sd)).symm)
    (fun r sd h₁ h₂ => A.owns h₁ h₂ sd) nofun

/-- **The accept socket is taken back from the client `c`.** -/
theorem ApartFrom.unshare {c : Addr} (A : ApartFrom g g' c) (H : Holding g.sockets (g.Owns m handed))
    (hover : handed) (hover' : ¬ handed') (hl : g'.live c = false)
    (hx : ∀ sd, g.Owns m handed (some (.socket c)) sd ↔ g.acceptSocket = some sd) :
    Holding g'.sockets (g'.Owns m handed') := by
  rw [A.sockets]
  have hdst : ∀ sd, ¬ g.Owns m handed (some .socketAccept) sd := fun sd h => h.1 hover
  have hdst' : ∀ sd, g'.Owns m handed' (some .socketAccept) sd ↔ g.acceptSocket = some sd := by
    intro sd
    rw [← A.acceptSocket]
    exact and_iff_right hover'
  refine H.give _ hx ?_ (fun sd => (hdst' sd).trans (or_iff_right (hdst sd)).symm)
    (fun r sd h₁ h₂ => A.owns h₂ h₁ sd) nofun
  rintro sd ⟨hlive, -⟩
  rw [hl] at hlive
  cases hlive

/-! ### Each socket has one owner -/

/-- Each socket has one owner, and no client has a `SocketAccept`. -/
structure SocketsOwned (g : Globals) (m : MainPc) (handed : Prop) : Prop where
  nodup : g.closed.Nodup
  holding : Holding g.sockets (g.Owns m handed)
  noAccept : ∀ a, g.live a = true → g.pCtxtListenSocket ≠ some a →
    (g.io a).bind PerIoContext.socketAccept = none

namespace SocketsOwned

variable {k c : Addr} {io : PerIoContext} {sd : Option Socket} {ok : Bool}

/-- At first there is no socket. -/
protected theorem initial (m : MainPc) (handed : Prop) : Globals.initial.SocketsOwned m handed := by
  have hfree : ∀ r sd, ¬ Globals.initial.Owns m handed r sd := by
    intro r sd h
    cases r using owner_cases with
    | none | sdListen => cases h
    | socketAccept => cases h.2
    | socket a => cases h.1
  exact ⟨List.nodup_nil,
    ⟨fun r sd h => (hfree r sd h).elim, nofun, fun sd r _ h => (hfree r sd h).elim⟩, nofun⟩

/-- A step that moves no socket. -/
theorem same (h : g.SocketsOwned m handed) (S : SameSockets g g')
    (hm : ∀ a, m' = .associate a ↔ m = .associate a) (ho : handed' ↔ handed) :
    g'.SocketsOwned m' handed' where
  nodup := S.closed ▸ h.nodup
  holding := S.sockets ▸ h.holding.congr fun r sd => S.owns hm ho r sd
  noAccept a hl hne := by
    rw [S.accept]
    exact h.noAccept a (S.live ▸ hl) (S.pCtxtListenSocket ▸ hne)

/-- **All that one reference holds is closed.** -/
theorem close {r : SocketRef} (h : g.SocketsOwned m handed)
    (hsrc : ∀ o, g.Owns m handed (some r) o ↔ sd = some o) (hs : g'.sockets = g.sockets)
    (hclosed : g'.closed = g.closed ++ sd.toList) (hsrc' : ∀ o, ¬ g'.Owns m' handed' (some r) o)
    (e : ∀ r' o, r' ≠ r → (g'.Owns m' handed' (some r') o ↔ g.Owns m handed (some r') o))
    (hno : ∀ a, g'.live a = true → g'.pCtxtListenSocket ≠ some a →
      (g'.io a).bind PerIoContext.socketAccept = none) : g'.SocketsOwned m' handed' := by
  refine ⟨?_, ?_, hno⟩
  · -- what is closed now has not been closed before
    rw [hclosed, List.nodup_append]
    refine ⟨h.nodup, by cases sd <;> simp, fun x hx y hy => ?_⟩
    rintro rfl
    have := (hsrc x).mpr (Option.mem_toList.mp hy)
    cases h.holding.unique x none _ hx this
  · rw [hs]
    refine h.holding.give none hsrc hsrc' (fun o => ?_) (fun r' o h₁ h₂ => ?_) nofun
    · show o ∈ g'.closed ↔ o ∈ g.closed ∨ sd = some o
      rw [hclosed, List.mem_append, Option.mem_toList]
    · cases r' with
      | none => exact absurd rfl h₂
      | some r' => exact e r' o fun hr => h₁ (congrArg some hr)

/-- **`CloseClient` closes the socket of its client.** -/
theorem closeClient (h : g.SocketsOwned m handed) (hc : Iocp.closeClient a g = some g')
    (hl : g.live a = true) (hne : g.pCtxtListenSocket ≠ some a) (hm : m ≠ .associate a) :
    g'.SocketsOwned m handed := by
  obtain ⟨K, hlive, -, -⟩ := closeClient_spec hc
  obtain ⟨hs, io, hio, hclosed⟩ := closeClient_sockets hc
  have hacc := h.noAccept a hl hne
  rw [hio, Option.bind_some] at hacc
  have hacceptSocket : g'.acceptSocket = g.acceptSocket := by
    unfold Globals.acceptSocket
    rw [K.pCtxtListenSocket]
    cases hk : g.pCtxtListenSocket with
    | none => rfl
    | some k =>
      rw [Option.bind_some, Option.bind_some, K.io]
      exact fun e => hne (hk.trans e.symm)
  have hsrc : ∀ o, g.Owns m handed (some (.socket a)) o ↔ (g.ctxt a).socket = some o := fun o =>
    ⟨fun ho => ho.2.2.2, fun ho => ⟨hl, hne, hm, ho⟩⟩
  have hgone : g'.live a = false := by rw [hlive, Function.update_self]
  refine h.close hsrc hs ?_ ?_ (fun r o hr => ?_) fun b hb hnb => ?_
  · rw [hclosed, hacc, Option.toList_none, List.append_nil]
  · rintro o ⟨ho, -⟩
    rw [hgone] at ho
    cases ho
  · cases r with
    | sdListen => simp only [Owns, K.sdListen]
    | socketAccept => simp only [Owns, hacceptSocket]
    | socket b =>
      have hba : b ≠ a := fun e => hr (congrArg SocketRef.socket e)
      have hsd : (g'.ctxt b).socket = (g.ctxt b).socket :=
        K.socket b fun e => hba (Option.some.inj e).symm
      simp [Owns, hlive, K.pCtxtListenSocket, hsd, hba]
  · have hba : b ≠ a := by
      rintro rfl
      rw [hgone] at hb
      cases hb
    rw [K.io fun e => hba (Option.some.inj e).symm]
    refine h.noAccept b ?_ (K.pCtxtListenSocket ▸ hnb)
    rwa [hlive, Function.update_of_ne hba] at hb

/-- **The accept socket is closed**, and the listening context freed. -/
theorem closeAccept (h : g.SocketsOwned m handed) (hk : g.pCtxtListenSocket = some k)
    (hio : g.io k = some io) (hover : ¬ handed)
    (hg : (((g.closesocket io.socketAccept).modifyIo k fun io =>
      { io with socketAccept := none }).free k).setCtxtListenSocket none = g') :
    g'.SocketsOwned m handed := by
  have hlisten : g'.pCtxtListenSocket = none := hg ▸ rfl
  have hgone : g'.live k = false := by
    rw [← hg]
    exact Function.update_self ..
  have hlive : ∀ b, b ≠ k → g'.live b = g.live b := by
    intro b hb
    rw [← hg]
    exact Function.update_of_ne hb ..
  have hne : ∀ b, b ≠ k → g.pCtxtListenSocket ≠ some b := fun b hb e =>
    hb (Option.some.inj (hk.symm.trans e)).symm
  refine h.close (show ∀ o, g.Owns m handed (some .socketAccept) o ↔ io.socketAccept = some o from
    fun o => ?_) (hg ▸ rfl) (hg ▸ rfl)
    (fun o ho => ?_) (fun r o hr => ?_) fun b hb _ => ?_
  · refine (and_iff_right hover).trans ?_
    rw [acceptSocket_of_listening hk, hio, Option.bind_some]
  · cases (acceptSocket_of_not_listening hlisten).symm.trans ho.2
  · cases r with
    | sdListen =>
      rw [← hg]
      exact Iff.rfl
    | socketAccept => exact absurd rfl hr
    | socket b =>
      by_cases e : b = k
      · subst e
        refine iff_of_false (fun ho => ?_) fun ho => ho.2.1 hk
        cases hgone.symm.trans ho.1
      · have hsd : (g'.ctxt b).socket = (g.ctxt b).socket := hg ▸ socket_modifyIo k b _
        simp [Owns, hlive b e, hlisten, hne b e, hsd]
  · have hbk : b ≠ k := by
      rintro rfl
      cases hgone.symm.trans hb
    have hio' : g'.io b = g.io b := by
      rw [← hg]
      exact (io_modifyIo k b _).trans (if_neg hbk)
    rw [hio']
    exact h.noAccept b ((hlive b hbk).symm.trans hb) (hne b hbk)

/-- **The accept socket is given to a new client.** -/
theorem allocate (h : g.SocketsOwned m handed) (hk : g.pCtxtListenSocket = some k)
    (hkl : g.live k = true) (hio : g.io k = some io) (hc : g.live c = false)
    (hm : ∀ a, m ≠ .associate a) (hover : ¬ handed) (hover' : handed')
    (hg : (ctxtAllocate io.socketAccept .clientIoAccept (.ok c) g).1 = g') :
    g'.SocketsOwned m handed' := by
  have hspec : (ctxtAllocate io.socketAccept .clientIoAccept (.ok c) g).2 = some c := rfl
  obtain ⟨hA, -, ⟨-, hlive', hsd', hio'⟩ | ⟨hx, -⟩⟩ := ctxtAllocate_spec hspec
  swap
  · cases hx
  obtain ⟨hlisten, hsdl, -, -⟩ := ctxtAllocate_globals io.socketAccept .clientIoAccept (.ok c) g
  have hclosed : g'.closed = g.closed ∧ g'.sockets = g.sockets := by
    rw [← hg]
    exact ⟨rfl, rfl⟩
  rw [hg] at hA hlive' hsd' hio' hlisten hsdl
  have hkc : k ≠ c := by
    rintro rfl
    rw [hkl] at hc
    cases hc
  have hlc : g'.pCtxtListenSocket ≠ some c := by
    rw [hlisten]
    exact fun e => hkc (Option.some.inj (hk.symm.trans e))
  have hacc := acceptSocket_of_listening hk
  have A : ApartFrom g g' c := by
    refine ⟨hclosed.2, hclosed.1, hsdl, hlisten, fun b hb => (hA b hb).live,
      fun b hb => (hA b hb).socket, ?_⟩
    rw [acceptSocket_of_listening (hlisten.trans hk), (hA k hkc).io, hacc]
  refine ⟨hclosed.1 ▸ h.nodup, A.share h.holding hover hover' hc fun sd => ?_, fun b hb hnb => ?_⟩
  · rw [hacc, hio, Option.bind_some]
    exact ⟨fun hx => hsd'.symm.trans hx.2.2.2, fun hx => ⟨hlive', hlc, hm c, hsd'.trans hx⟩⟩
  · by_cases e : b = c
    · rw [e, hio']
      rfl
    · rw [(hA b e).io]
      exact h.noAccept b ((hA b e).live.symm.trans hb) (hlisten ▸ hnb)

/-- **`CreateAcceptSocket` makes a socket for the listening context**, which has none of its own. -/
theorem createAccept (h : g.SocketsOwned m handed) (hk : g.pCtxtListenSocket = some k)
    (hio : g.io k = some io) (hfree : ∀ sd, ¬ g.Owns m handed (some .socketAccept) sd)
    (hm : ∀ a, m' = .associate a ↔ m = .associate a) (hover : ¬ handed')
    (hg : (g.createSocket ok).1.modifyIo k (fun io =>
      { io with socketAccept := (g.createSocket ok).2 }) = g') :
    g'.SocketsOwned m' handed' := by
  have W : Within g g' (some k) := hg ▸ (within_createSocket ok).trans (within_modifyIo k _)
  have hio' : (g.createSocket ok).1.io k = some io :=
    ((within_createSocket (c := none) ok).io nofun).trans hio
  have hs : g'.sockets = if ok then g.sockets + 1 else g.sockets := by
    rw [← hg]
    cases ok <;> rfl
  have hclosed : g'.closed = g.closed := by
    rw [← hg]
    cases ok <;> rfl
  have hacc : g'.acceptSocket = if ok then some g.sockets else none := by
    rw [acceptSocket_of_listening (W.pCtxtListenSocket.trans hk), ← hg, io_modifyIo_self hio']
    cases ok <;> rfl
  have hsd : ∀ b, (g'.ctxt b).socket = (g.ctxt b).socket := by
    intro b
    rw [← hg, socket_modifyIo]
    exact (within_createSocket (c := none) ok).socket b nofun
  have hother : ∀ (r : Option SocketRef) (sd : Socket), r ≠ some .socketAccept →
      (g'.Owns m' handed' r sd ↔ g.Owns m handed r sd) := by
    intro r sd hr
    cases r using owner_cases with
    | none => simp only [Owns, hclosed]
    | sdListen => simp only [Owns, W.sdListen]
    | socketAccept => exact absurd rfl hr
    | socket b => simp only [Owns, W.live, W.pCtxtListenSocket, hsd, ne_eq, hm]
  refine ⟨hclosed ▸ h.nodup, ?_, fun a hl hne => ?_⟩
  · cases ok with
    | true =>
      have hown : ∀ sd, g'.Owns m' handed' (some .socketAccept) sd ↔ g.sockets = sd := by
        intro sd
        refine (and_iff_right hover).trans ?_
        rw [hacc, if_pos rfl, Option.some.injEq]
      rw [hs, if_pos rfl]
      refine h.holding.make (some .socketAccept) fun r sd => ?_
      by_cases hr : r = some .socketAccept
      · subst hr
        rw [hown]
        have := hfree sd
        grind
      · rw [hother r sd hr]
        simp [hr]
    | false =>
      rw [hs, if_neg Bool.false_ne_true]
      refine h.holding.congr fun r sd => ?_
      by_cases hr : r = some .socketAccept
      · subst hr
        refine iff_of_false ?_ (hfree sd)
        rintro ⟨-, hsd⟩
        rw [hacc] at hsd
        cases hsd
      · exact hother r sd hr
  · rw [W.pCtxtListenSocket] at hne
    rw [W.live] at hl
    rw [W.io fun e => hne (hk.trans e)]
    exact h.noAccept a hl hne

/-- **The listening socket is made.** -/
theorem listenSocket (h : g.SocketsOwned m handed) (hlisten : g.sdListen = none)
    (hm : ∀ a, m' = .associate a ↔ m = .associate a) :
    ((g.createSocket ok).1.setListen (g.createSocket ok).2).SocketsOwned m' handed := by
  have hother : ∀ (r : Option SocketRef) (sd : Socket), r ≠ some .sdListen →
      (((g.createSocket ok).1.setListen (g.createSocket ok).2).Owns m' handed r sd ↔
        g.Owns m handed r sd) := by
    intro r sd hr
    cases r using owner_cases with
    | none | socketAccept => cases ok <;> exact Iff.rfl
    | sdListen => exact absurd rfl hr
    | socket b => cases ok <;> simp only [Owns, ne_eq, hm] <;> exact Iff.rfl
  have W : Within g (g.createSocket ok).1 none := within_createSocket ok
  refine ⟨?_, ?_, fun a hl hne => ?_⟩
  · cases ok <;> exact h.nodup
  · cases ok with
    | true =>
      refine h.holding.make (some .sdListen) fun r sd => ?_
      by_cases hr : r = some .sdListen
      · subst hr
        simp only [Owns, Globals.createSocket, Globals.setListen, hlisten]
        grind
      · rw [hother r sd hr]
        simp [hr]
    | false =>
      refine h.holding.congr fun r sd => ?_
      by_cases hr : r = some .sdListen
      · subst hr
        simp [Owns, Globals.createSocket, Globals.setListen, hlisten]
      · exact hother r sd hr
  · show ((g.createSocket ok).1.io a).bind _ = none
    rw [W.io nofun]
    exact h.noAccept a (W.live ▸ hl) (W.pCtxtListenSocket ▸ hne)

/-- `main` makes its listening context, which is no client and has no `SocketAccept` yet. -/
theorem allocateListen (h : g.SocketsOwned m handed) (hlisten : g.pCtxtListenSocket = none)
    (hc : g.live c = false) (hm : ∀ a, m ≠ .associate a)
    (hg : (ctxtAllocate g.sdListen .clientIoAccept (.ok c) g).1 = g') :
    g'.SocketsOwned (.associate c) handed := by
  have hspec : (ctxtAllocate g.sdListen .clientIoAccept (.ok c) g).2 = some c := rfl
  obtain ⟨hA, -, ⟨-, -, -, hio'⟩ | ⟨hx, -⟩⟩ := ctxtAllocate_spec hspec
  swap
  · cases hx
  obtain ⟨hlisten', hsdl, -, -⟩ := ctxtAllocate_globals g.sdListen .clientIoAccept (.ok c) g
  have hclosed : g'.closed = g.closed ∧ g'.sockets = g.sockets := by
    rw [← hg]
    exact ⟨rfl, rfl⟩
  rw [hg] at hA hio' hlisten' hsdl
  refine ⟨hclosed.1 ▸ h.nodup, ?_, fun b hb _ => ?_⟩
  · rw [hclosed.2]
    refine h.holding.congr fun r sd => ?_
    cases r using owner_cases with
    | none => simp only [Owns, hclosed.1]
    | sdListen => simp only [Owns, hsdl]
    | socketAccept => simp [Owns, Globals.acceptSocket, hlisten', hlisten]
    | socket b =>
      by_cases e : b = c
      · subst e
        refine iff_of_false (fun hx => hx.2.2.1 rfl) ?_
        rintro ⟨hl, -⟩
        rw [hc] at hl
        cases hl
      · have hne : MainPc.associate c ≠ .associate b := fun h => e (MainPc.associate.inj h).symm
        simp [Owns, (hA b e).live, (hA b e).socket, hlisten', hm b, hne]
  · by_cases e : b = c
    · rw [e, hio']
      rfl
    · rw [(hA b e).io]
      exact h.noAccept b ((hA b e).live.symm.trans hb) (by rw [hlisten]; exact nofun)

/-- The context is registered as the listening one, or freed. -/
theorem associateListen (h : g.SocketsOwned (.associate c) handed)
    (hlisten : g.pCtxtListenSocket = none) (hacc : (g.io c).bind PerIoContext.socketAccept = none)
    (hclosed : g'.closed = g.closed) (hs : g'.sockets = g.sockets) (hsdl : g'.sdListen = g.sdListen)
    (hctxt : g'.ctxt = g.ctxt) (hlive : ∀ b, b ≠ c → g'.live b = g.live b)
    (hc : g'.pCtxtListenSocket = some c ∨ g'.pCtxtListenSocket = none ∧ g'.live c = false)
    (hm : ∀ a, m ≠ .associate a) : g'.SocketsOwned m handed := by
  have hio : ∀ b, g'.io b = g.io b := io_congr hctxt
  have hnone : g.acceptSocket = none := acceptSocket_of_not_listening hlisten
  have hnone' : g'.acceptSocket = none := by
    rcases hc with hc | ⟨hc, -⟩
    · rw [acceptSocket_of_listening hc, hio, hacc]
    · exact acceptSocket_of_not_listening hc
  have hne : ∀ b, b ≠ c → g'.pCtxtListenSocket ≠ some b := by
    intro b hb e
    rcases hc with hc | ⟨hc, -⟩
    · exact hb (Option.some.inj (hc.symm.trans e)).symm
    · cases hc.symm.trans e
  have hgone : ¬ (g'.live c = true ∧ g'.pCtxtListenSocket ≠ some c) := by
    rintro ⟨hl, hne⟩
    rcases hc with hc | ⟨-, hc⟩
    · exact hne hc
    · cases hc.symm.trans hl
  refine ⟨hclosed ▸ h.nodup, ?_, fun b hb hnb => ?_⟩
  · rw [hs]
    refine h.holding.congr fun r sd => ?_
    cases r using owner_cases with
    | none => simp only [Owns, hclosed]
    | sdListen => simp only [Owns, hsdl]
    | socketAccept => simp [Owns, hnone, hnone']
    | socket b =>
      by_cases e : b = c
      · subst e
        exact iff_of_false (fun hx => hgone ⟨hx.1, hx.2.1⟩) fun hx => hx.2.2.1 rfl
      · have hcb : MainPc.associate c ≠ .associate b := fun h => e (MainPc.associate.inj h).symm
        simp [Owns, hlive b e, hctxt, hne b e, hm b, hcb, hlisten]
  · have hbc : b ≠ c := fun e => hgone (e ▸ ⟨hb, hnb⟩)
    rw [hio]
    exact h.noAccept b ((hlive b hbc).symm.trans hb) (by rw [hlisten]; exact nofun)

end SocketsOwned

end

end Globals

/-! ## The steps of a worker that move no socket -/

section

variable {y y' : Shared} {pc pc' : WorkerPc}

theorem sameSockets_start (y : Shared) (sd : Option Socket) (a : Addr) (call : Call)
    (r : CallResult) : SameSockets y.g (y.start sd a call r).g := by
  unfold Shared.start
  split_ifs
  · exact sameSockets_modifyIo a fun _ => rfl
  · exact .refl _

theorem sameSockets_addTo (a : Addr) (g : Globals) : SameSockets g (ctxtListAddTo a g) := by
  have W : Within g (ctxtListAddTo a g) none := within_ctxtListAddTo a none
  have hg : (ctxtListAddTo a g).sockets = g.sockets ∧ (ctxtListAddTo a g).closed = g.closed := by
    unfold ctxtListAddTo ctxtListLink
    split <;> exact ⟨rfl, rfl⟩
  refine ⟨hg.1, hg.2, W.sdListen, W.pCtxtListenSocket, W.live, fun b => W.socket b nofun, fun b => ?_⟩
  rw [W.io nofun]

theorem socketAccept_finish {c : Call} {t : Transfer} {f : PerIoContext → PerIoContext}
    (h : c.finish t = some f) (io : PerIoContext) : (f io).socketAccept = io.socketAccept := by
  unfold Call.finish at h
  split at h
  · obtain ⟨-, h⟩ := Option.ite_none_right_eq_some.mp h
    exact Option.some.inj h ▸ rfl
  · obtain ⟨-, h⟩ := Option.ite_none_right_eq_some.mp h
    exact Option.some.inj h ▸ rfl
  · obtain ⟨-, h⟩ := Option.ite_none_right_eq_some.mp h
    exact Option.some.inj h ▸ rfl
  · cases h

theorem sameSockets_complete {i : ℕ} {t : Transfer} {ok : Bool} (h : y.complete i t ok = some y') :
    SameSockets y.g y'.g := by
  obtain ⟨op, -, f, -, -, hf, rfl⟩ := Shared.complete_cases h
  exact sameSockets_modifyIo op.overlapped fun io => socketAccept_finish hf io

/-- The statements of a worker that make, move or close a socket. -/
def WorkerPc.movesSocket : WorkerPc → Bool
  | .close _ | .allocate .. | .associate .. | .acceptClose _ | .createSocket => true
  | _ => false

theorem sameSockets_worker {v : Bool} (h : WorkerStep v y pc y' pc')
    (hpc : pc.movesSocket = false) :
    SameSockets y.g y'.g ∧ pc'.handedOver = pc.handedOver := by
  cases h with
  | quit | dequeue | endServer | serve | setEvent => exact ⟨.refl _, rfl⟩
  | drop | accept | message | updated | updateFailed | acceptMessage | postFailed =>
    exact ⟨sameSockets_touch _, rfl⟩
  | read => exact ⟨sameSockets_modifyIo _ fun _ => rfl, rfl⟩
  | @write k op n ok io hio hop hd =>
    refine ⟨sameSockets_modifyIo _ fun io => ?_, rfl⟩
    unfold PerIoContext.clientIoWrite
    split_ifs <;> rfl
  | @posted k o p r =>
    refine ⟨(sameSockets_touch k).trans (sameSockets_start (y.setG (y.g.touch k)) _ _ _ _), ?_⟩
    cases v <;> rfl
  | added => exact ⟨sameSockets_addTo _ _, rfl⟩
  | @prepared k n c listen io hk hio =>
    refine ⟨(sameSockets_touch k).trans (sameSockets_modifyIo _ fun io => ?_), rfl⟩
    unfold PerIoContext.clientIoAccept PerIoContext.copyFirst
    split_ifs <;> rfl
  | @acceptPosted k c p r hr =>
    have h₁ : SameSockets y.g ((y.g.touch k).touch c) :=
      (sameSockets_touch k).trans (sameSockets_touch c)
    refine ⟨h₁.trans (sameSockets_start (y.setG ((y.g.touch k).touch c)) _ _ _ _), ?_⟩
    cases p <;> cases v <;> rfl
  | acceptPostFailed => exact ⟨(sameSockets_touch _).trans (sameSockets_touch _), rfl⟩
  | acceptEx hc =>
    obtain ⟨a, -, -, -, rfl⟩ := Shared.acceptEx_cases hc
    exact ⟨sameSockets_start y _ _ _ _, rfl⟩
  | closed | allocated | noMemory | associated | associateFailed | acceptClosed | created
    | createFailed => cases hpc

end

end SelfStudy.Iocp
