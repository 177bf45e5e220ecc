import SelfStudy.Iocp.Sockets
import SelfStudy.Iocp.Transcript

/-!
# What the keepers know of the dialogues

A `Log` has the dialogue on each socket. The keeper of a client knows that the I/O context of the
client is as the dialogue on its socket wants it, and the keeper of the listening context that the
accept socket has no key and its dialogue has not gone beyond the accept. `Confined` is what a step
of another keeper leaves alone of the log, beside `Frame` for the contexts; `Tells` is the effect of
a step of a worker.
-/

namespace SelfStudy.Iocp

open Lib Globals

/-- The dialogue on each socket. -/
abbrev Log := Socket → Talk

def Log.hear (L : Log) (x : Socket × Event) : Log := Function.update L x.1 ((L x.1).hear x.2)

/-- The socket that the operation was started on. -/
def Globals.socketOf (g : Globals) (op : Operation) : Option Socket :=
  match op.call with
  | .acceptEx => (g.io op.overlapped).bind PerIoContext.socketAccept
  | .post _ => (g.ctxt op.overlapped).socket

/-- What is heard at the completion of the `i`th outstanding operation. -/
def Shared.hears (y : Shared) (i : ℕ) (t : Transfer) : Option (Socket × Event) :=
  y.outstanding[i]?.bind fun op => (y.g.socketOf op).map fun sd => (sd, .completed t.completion)

/-- What is heard at a call on `sd` with the I/O context of `a`. -/
def Shared.speaks (y : Shared) (sd : Option Socket) (a : Addr) (p : Post) : Option (Socket × Event) :=
  (y.g.io a).bind fun io => (p.event io.buffer).bind fun e => sd.map fun sd => (sd, e)

/-- What is heard at the next statement of a worker; also a call that fails is heard. -/
def WorkerPc.heard (y : Shared) : WorkerPc → Option (Socket × Event)
  | .post k o p => y.speaks (y.g.ctxt k).socket o p
  | .acceptPost k c p => y.speaks (acceptPostSocket y.g k c p) c p
  | _ => none

/-- What is heard at a step of the server. -/
def Server.heard (s : Server) : Action → Option (Socket × Event)
  | .worker i _ => s.workers[i]?.bind (WorkerPc.heard s.y)
  | .complete i t _ => s.y.hears i t
  | _ => none

/-! ## What a keeper knows -/

namespace Shared

variable (y : Shared) (L : Log)

/-- The I/O context of the client `a` and the dialogue on its socket. -/
def Talks (a : Addr) (P : PerIoContext → Talk → Prop) : Prop :=
  ∃ sd io, (y.g.ctxt a).socket = some sd ∧ y.key sd = some a ∧ y.g.io a = some io ∧ P io (L sd)

/-- The I/O context of the listening context `k` and the dialogue on the accept socket, which nobody
else can know yet. -/
def Lends (k : Addr) (P : PerIoContext → Talk → Prop) : Prop :=
  ∃ io, y.g.io k = some io ∧ ∀ sd, io.socketAccept = some sd →
    sd < y.g.sockets ∧ y.key sd = none ∧ P io (L sd)

/-- The new client `c` has its first I/O context, if it has any. -/
def Blank (c : Addr) : Prop := ∀ io, y.g.io c = some io → io = .initial .clientIoAccept

/-- What the handler of `n` bytes with AcceptEx owes the new client. -/
def owesFirst (n : ℕ) (io : PerIoContext) (t : Talk) : Prop := Owes (Call.acceptEx.handler io n) t

/-- The new client `c` has its key, if it has an I/O context at all. -/
def NewTold (k : Addr) (n : ℕ) (c : Addr) : Prop :=
  y.Blank c ∧ ((y.g.io c).isSome →
    ∃ listen, y.g.io k = some listen ∧ y.Talks L c fun _ t => owesFirst n listen t)

def OpTold (op : Operation) : Prop :=
  match op.call with
  | .acceptEx => y.Lends L op.overlapped fun _ t => t = .start
  | .post p => y.Talks L op.overlapped fun io t => Waits io p t

/-- The operation has completed with `n` bytes; with none the client is dropped. -/
def DoneTold (op : Operation) (n : ℕ) : Prop :=
  match op.call with
  | .acceptEx => y.Lends L op.overlapped (owesFirst n)
  | .post p => n ≠ 0 → y.Talks L op.overlapped fun io t => Owes ((Call.post p).handler io n) t

def PacketTold : Packet → Prop
  | .quit => True
  | .completed op _ n _ => y.DoneTold L op n

def PcTold : WorkerPc → Prop
  | .testEnd _ op n _ | .dispatch _ op n _ => y.DoneTold L op n
  | .post k _ p => y.Talks L k fun io t => Owes (io, p) t
  | .setsockopt k n | .allocate k n => y.Lends L k (owesFirst n)
  | .associate k n _ c => y.Lends L k (owesFirst n) ∧ y.Blank c
  | .addTo k n c | .prepare k n c => y.NewTold L k n c
  | .acceptPost _ c p => y.Talks L c fun io t => Owes (io, p) t
  | .acceptEx => ∀ k, y.g.pCtxtListenSocket = some k → y.Lends L k fun _ t => t = .start
  | _ => True

/-- What holds of the log and the sockets whoever has the contexts: a socket that has not been made
has no key and no dialogue, and no region is posted that no completion has called for. -/
structure Settled : Prop where
  key : ∀ sd a, y.key sd = some a → sd < y.g.sockets
  sdListen : ∀ sd, y.g.sdListen = some sd → sd < y.g.sockets
  silent : ∀ sd, y.g.sockets ≤ sd → L sd = .start
  length : ∀ k io, y.g.pCtxtListenSocket = some k → y.g.io k = some io →
    io.buffer.length = maxBuffSize
  posted : ∀ sd, (L sd).posted <+: (L sd).echoes

/-- What the keeper of the client `c` (and, if `l`, of the listening context) leaves alone of the
dialogues: it is heard on the socket of its client only, or on the accept socket. -/
structure Confined (y : Shared) (L : Log) (y' : Shared) (L' : Log) (c : Option Addr) (l : Bool) :
    Prop where
  sockets : y.g.sockets ≤ y'.g.sockets
  key : l = false → y'.key = y.key
  log : ∀ sd, L' sd = L sd ∨ (∃ a, c = some a ∧ y.key sd = some a) ∨ l = true ∧ y.key sd = none

/-! ## Frames -/

section Frame

variable {y L} {y' : Shared} {L' : Log} {c : Option Addr} {l : Bool} {a k : Addr} {op : Operation}
  {n : ℕ} {P Q : PerIoContext → Talk → Prop}

theorem Talks.imp (h : y.Talks L a P) (hs : (y'.g.ctxt a).socket = (y.g.ctxt a).socket)
    (hk : ∀ sd, y.key sd = some a → y'.key sd = some a)
    (hP : ∀ sd io, (y.g.ctxt a).socket = some sd → y.key sd = some a → y.g.io a = some io →
      P io (L sd) → ∃ io', y'.g.io a = some io' ∧ Q io' (L' sd)) : y'.Talks L' a Q := by
  obtain ⟨sd, io, hsd, hkey, hio, hp⟩ := h
  obtain ⟨io', hio', hq⟩ := hP sd io hsd hkey hio hp
  exact ⟨sd, io', hs.trans hsd, hk sd hkey, hio', hq⟩

theorem Talks.frame (h : y.Talks L a P) (ha : y.IsClient a) (F : y.Frame y' c l)
    (C : Confined y L y' L' c l) (hc : c ≠ some a) : y'.Talks L' a P := by
  have A := F.client a hc ha.live ha.ne
  refine h.imp A.socket (fun sd => F.key sd a) fun sd io hsd hkey hio hp => ?_
  refine ⟨io, A.io.trans hio, ?_⟩
  rcases C.log sd with hL | ⟨b, hb, hkey'⟩ | ⟨-, hkey'⟩
  · rw [hL]
    exact hp
  · rw [hkey] at hkey'
    exact absurd (hb.trans hkey'.symm) hc
  · rw [hkey] at hkey'
    cases hkey'

theorem Lends.frame (h : y.Lends L k P) (hk : y.Listening k) (F : y.Frame y' c false)
    (C : Confined y L y' L' c false) : y'.Lends L' k P := by
  obtain ⟨-, A⟩ := hk.agree F
  obtain ⟨io, hio, h⟩ := h
  refine ⟨io, A.io.trans hio, fun sd hsd => ?_⟩
  obtain ⟨hlt, hkey, hp⟩ := h sd hsd
  refine ⟨hlt.trans_le C.sockets, by rw [C.key rfl, hkey], ?_⟩
  rcases C.log sd with hL | ⟨b, -, hkey'⟩ | ⟨hl, -⟩
  · rw [hL]
    exact hp
  · rw [hkey] at hkey'
    cases hkey'
  · cases hl

theorem Blank.frame (h : y.Blank a) (F : y.Frame y' c false) (hc : c ≠ some a) : y'.Blank a := by
  intro io hio
  obtain ⟨-, hA⟩ := F.listen rfl
  rw [(hA a hc).io] at hio
  exact h io hio

theorem OpTold.frame (h : y.OpTold L op) (hop : y.OpOk op) (F : y.Frame y' c l)
    (C : Confined y L y' L' c l) (hc : ∀ a, op.client = some a → c ≠ some a)
    (hl : op.isAccept = true → l = false) : y'.OpTold L' op := by
  obtain ⟨key, overlapped, serial, call⟩ := op
  cases call with
  | acceptEx =>
    obtain rfl := hl rfl
    have h' : y.Lends L overlapped fun _ t => t = .start := h
    exact h'.frame (hop.listening rfl) F C
  | post p => exact Talks.frame h hop.call.1 F C (hc _ rfl)

theorem DoneTold.frame (h : y.DoneTold L op n) (hop : y.OpOk op) (F : y.Frame y' c l)
    (C : Confined y L y' L' c l) (hc : ∀ a, op.client = some a → c ≠ some a)
    (hl : op.isAccept = true → l = false) : y'.DoneTold L' op n := by
  obtain ⟨key, overlapped, serial, call⟩ := op
  cases call with
  | acceptEx =>
    obtain rfl := hl rfl
    exact Lends.frame h (hop.listening rfl) F C
  | post p =>
    intro hn
    exact Talks.frame (h hn) hop.call.1 F C (hc _ rfl)

theorem NewTold.frame {c' : Addr} (h : y.NewTold L k n c') (hk : y.Listening k)
    (hc' : y.Associated k c') (F : y.Frame y' c false) (C : Confined y L y' L' c false)
    (hc : c ≠ some c') : y'.NewTold L' k n c' := by
  obtain ⟨hblank, h⟩ := h
  obtain ⟨-, Ak⟩ := hk.agree F
  obtain ⟨-, hA⟩ := F.listen rfl
  refine ⟨hblank.frame F hc, fun hio => ?_⟩
  rw [(hA c' hc).io] at hio
  obtain ⟨listen, hlisten, h⟩ := h hio
  refine ⟨listen, Ak.io.trans hlisten, ?_⟩
  rcases hc' with ⟨-, ⟨hcl, -⟩ | ⟨-, hdead⟩⟩
  · exact h.frame hcl F C hc
  · rw [hdead] at hio
    cases hio

/-- What a worker knows is kept by a step of another keeper. -/
theorem PcTold.frame {pc : WorkerPc} (h : y.PcTold L pc) (hpc : y.PcOk pc) (F : y.Frame y' c l)
    (C : Confined y L y' L' c l) (hc : ∀ a, pc.client = some a → c ≠ some a)
    (hl : pc.accepting = true → l = false) : y'.PcTold L' pc := by
  cases pc with
  | testEnd k op n ok | dispatch k op n ok => exact DoneTold.frame h hpc.2 F C hc hl
  | post k o p => exact Talks.frame h hpc.2.1 F C (hc _ rfl)
  | setsockopt k n | allocate k n =>
    obtain rfl := hl rfl
    exact Lends.frame h hpc F C
  | associate k n sd c' =>
    obtain rfl := hl rfl
    exact ⟨h.1.frame hpc.1 F C, h.2.frame F (hc _ rfl)⟩
  | addTo k n c' | prepare k n c' =>
    obtain rfl := hl rfl
    exact NewTold.frame h hpc.1 hpc.2 F C (hc _ rfl)
  | acceptPost k c' p => exact Talks.frame h hpc.2.1 F C (hc _ rfl)
  | acceptEx =>
    obtain rfl := hl rfl
    obtain ⟨k, hk⟩ := hpc
    intro k' hk'
    rw [F.pCtxtListenSocket] at hk'
    obtain rfl : k = k' := Option.some.inj (hk.listen.symm.trans hk')
    exact (h k hk.listen).frame hk F C
  | _ => trivial

end Frame

/-! ## The effect of a step of a worker -/

/-- What a step of a worker from `pc` to `pc'` does to the dialogues. -/
structure Tells (y : Shared) (L : Log) (pc : WorkerPc) (y' : Shared) (L' : Log) (pc' : WorkerPc) :
    Prop where
  confined : Confined y L y' L' pc.client pc.accepting
  outstanding : ∀ op ∈ y'.outstanding, op ∈ y.outstanding ∨ y'.OpTold L' op
  told : y'.PcTold L' pc'
  settled : y'.Settled L'

section Effect

variable {y y' : Shared} {L L' : Log} {c d : Option Addr} {l : Bool} {a k : Addr} {n : ℕ}
  {pc pc' : WorkerPc} {sd : Socket} {e : Event} {P : PerIoContext → Talk → Prop}

/-- Nothing is heard, and no socket is given a key. -/
theorem Confined.quiet (hs : y.g.sockets ≤ y'.g.sockets) (hk : y'.key = y.key) :
    Confined y L y' L c l := ⟨hs, fun _ => hk, fun _ => .inl rfl⟩

theorem Settled.keep (h : y.Settled L) (hs : y.g.sockets ≤ y'.g.sockets) (hk : y'.key = y.key)
    (hsd : y'.g.sdListen = y.g.sdListen)
    (hlen : ∀ k io, y'.g.pCtxtListenSocket = some k → y'.g.io k = some io →
      io.buffer.length = maxBuffSize) : y'.Settled L where
  key sd a hkey := (h.key sd a (hk ▸ hkey)).trans_le hs
  sdListen sd hl := (h.sdListen sd (hsd ▸ hl)).trans_le hs
  silent sd hle := h.silent sd (hs.trans hle)
  length := hlen
  posted := h.posted

/-- A step that writes to no context but the client `c`. -/
theorem Settled.keeps (h : y.Settled L) (K : Keeps y.g y'.g c)
    (hc : ∀ a, c = some a → y.g.pCtxtListenSocket ≠ some a) (hs : y'.g.sockets = y.g.sockets)
    (hk : y'.key = y.key) : y'.Settled L := by
  refine h.keep hs.ge hk K.sdListen fun k io hl hio => ?_
  rw [K.pCtxtListenSocket] at hl
  rw [K.io fun e => hc k e hl] at hio
  exact h.length k io hl hio

theorem Settled.hear (h : y.Settled L) (hsd : sd < y.g.sockets)
    (hp : ((L sd).hear e).posted <+: ((L sd).hear e).echoes) : y.Settled (L.hear (sd, e)) := by
  refine ⟨h.key, h.sdListen, fun sd' hle => ?_, h.length, fun sd' => ?_⟩
  · have hne : sd' ≠ sd := (hsd.trans_le hle).ne'
    rw [Log.hear, Function.update_of_ne hne]
    exact h.silent sd' hle
  · by_cases hsd' : sd' = sd
    · subst hsd'
      rw [Log.hear, Function.update_self]
      exact hp
    · rw [Log.hear, Function.update_of_ne hsd']
      exact h.posted sd'

/-- Something is heard on the socket of the client `a`. -/
theorem Confined.hear (hk : y.key sd = some a) : Confined y L y (L.hear (sd, e)) (some a) l := by
  refine ⟨Nat.le_refl _, fun _ => rfl, fun sd' => ?_⟩
  by_cases hsd : sd' = sd
  · exact .inr (.inl ⟨a, rfl, hsd ▸ hk⟩)
  · exact .inl (Function.update_of_ne hsd ..)

theorem Tells.of_keeps (C : Confined y L y L' pc.client pc.accepting) (S : y.Settled L')
    (K : Keeps y.g y'.g d) (hd : ∀ a, d = some a → y.g.pCtxtListenSocket ≠ some a)
    (hs : y'.g.sockets = y.g.sockets) (hk : y'.key = y.key)
    (ho : ∀ op ∈ y'.outstanding, op ∈ y.outstanding ∨ y'.OpTold L' op) (ht : y'.PcTold L' pc') :
    Tells y L pc y' L' pc' :=
  ⟨⟨hs.ge, fun _ => hk, C.log⟩, ho, ht, S.keeps K hd hs hk⟩

/-- The worker touches contexts, and nothing is heard. -/
theorem Tells.quiet (S : y.Settled L) (W : Within y.g y'.g none) (hs : y'.g.sockets = y.g.sockets)
    (hk : y'.key = y.key) (ho : y'.outstanding = y.outstanding) (ht : y'.PcTold L pc') :
    Tells y L pc y' L pc' :=
  .of_keeps (.quiet (Nat.le_refl _) rfl) S W.toKeeps nofun hs hk (fun _ h => .inl (ho ▸ h)) ht

/-- What a worker knows survives a step that only touches contexts. -/
theorem PcTold.quiet (h : y.PcTold L pc) (hpc : y.PcOk pc) (W : Within y.g y'.g none)
    (hs : y'.g.sockets = y.g.sockets) (hk : y'.key = y.key) : y'.PcTold L pc :=
  h.frame hpc (.quiet W hk) (.quiet hs.ge hk) nofun fun _ => rfl

/-! ### Posts -/

/-- **A region is posted as it was called for.** -/
theorem Talks.speaks {p : Post} (h : y.Talks L a fun io t => Owes (io, p) t) (S : y.Settled L) :
    y.Settled ((y.speaks (y.g.ctxt a).socket a p).toList.foldl Log.hear L) ∧
      (∀ l, Confined y L y ((y.speaks (y.g.ctxt a).socket a p).toList.foldl Log.hear L) (some a) l) ∧
      y.Talks ((y.speaks (y.g.ctxt a).socket a p).toList.foldl Log.hear L) a
        fun io t => Waits io p t := by
  obtain ⟨sd, io, hsd, hkey, hio, howes⟩ := h
  have hpost := howes.post io.pending
  have hspeaks : y.speaks (y.g.ctxt a).socket a p = (p.event io.buffer).map fun e => (sd, e) := by
    rw [Shared.speaks, hio, hsd]
    cases p <;> rfl
  rw [hspeaks]
  cases p with
  | recv w => exact ⟨S, fun l => .quiet (Nat.le_refl _) rfl, sd, io, hsd, hkey, hio, hpost⟩
  | send w =>
    refine ⟨S.hear (S.key sd a hkey) ?_, fun l => .hear hkey, sd, io, hsd, hkey, hio, ?_⟩
    · exact hpost.2 ▸ List.prefix_refl _
    · show Waits io (.send w) (Function.update L sd _ sd)
      rw [Function.update_self]
      exact hpost

theorem io_start {io : PerIoContext} (h : y.g.io a = some io) (sd : Option Socket) (call : Call)
    (r : CallResult) : ∃ b, (y.start sd a call r).g.io a = some { io with pending := b } := by
  unfold start
  split_ifs
  · exact ⟨true, io_modifyIo_self h _⟩
  · exact ⟨io.pending, h⟩

/-- The operation that a call starts on the client `a` is waited for. -/
theorem Talks.start {p : Post} {r : CallResult} (h : y.Talks L a fun io t => Waits io p t)
    (s : Option Socket) : ∀ op ∈ (y.start s a (.post p) r).outstanding,
      op ∈ y.outstanding ∨ (y.start s a (.post p) r).OpTold L op := by
  intro op hop
  have ht : (y.start s a (.post p) r).Talks L a fun io t => Waits io p t := by
    refine h.imp ((sameSockets_start y s a _ r).socket a) (fun sd hsd => ?_)
      fun sd io _ _ hio hw => ?_
    · rw [start_key]
      exact hsd
    · obtain ⟨b, hb⟩ := io_start hio s (.post p) r
      exact ⟨_, hb, hw.1.pending b, hw.2⟩
  unfold Shared.start at hop
  split_ifs at hop with hr
  · rcases List.mem_append.mp hop with hop | hop
    · exact .inl hop
    · obtain rfl := List.mem_singleton.mp hop
      exact .inr ht
  · exact .inl hop

/-- A post of the worker, which may fail. -/
theorem tells_post {p : Post} {g : Globals} {y₁ : Shared} (ht : y.Talks L a fun io t => Owes (io, p) t)
    (hne : y.g.pCtxtListenSocket ≠ some a) (S : y.Settled L) (hc : pc.client = some a)
    (hg : SameSockets y.g g) (W : Within y.g g none)
    (hy : y₁ = y.setG g ∨ ∃ s r, y₁ = (y.setG g).start s a (.post p) r)
    (ht' : ∀ L', y₁.PcTold L' pc') :
    Tells y L pc y₁ ((y.speaks (y.g.ctxt a).socket a p).toList.foldl Log.hear L) pc' := by
  obtain ⟨S', C, hw⟩ := ht.speaks S
  have hw' : (y.setG g).Talks ((y.speaks (y.g.ctxt a).socket a p).toList.foldl Log.hear L) a
      fun io t => Waits io p t :=
    hw.imp (hg.socket a) (fun _ h => h) fun sd io _ _ hio h => ⟨io, (W.io nofun).trans hio, h⟩
  have hne' : ∀ b, some a = some b → y.g.pCtxtListenSocket ≠ some b :=
    fun b hb => Option.some.inj hb ▸ hne
  rcases hy with rfl | ⟨s, r, rfl⟩
  · exact .of_keeps (hc ▸ C _) S' W.toKeeps nofun hg.sockets rfl (fun _ => .inl) (ht' _)
  · have hsock := sameSockets_start (y.setG g) s a (.post p) r
    have hW : Within y.g ((y.setG g).start s a (.post p) r).g (some a) :=
      (W.weaken _).trans (within_start (y := y.setG g) s a _ r)
    exact .of_keeps (hc ▸ C _) S' hW.toKeeps hne' (hsock.sockets.trans hg.sockets)
      (start_key ..) (hw'.start s) (ht' _)

theorem tells_reply {v : Bool} {k o : Addr} {p : Post} (hpc : y.PcOk (.post k o p))
    (h : y.PcTold L (.post k o p)) (S : y.Settled L) (hs : WorkerStep v y (.post k o p) y' pc') :
    Tells y L (.post k o p) y' (((WorkerPc.post k o p).heard y).toList.foldl Log.hear L) pc' := by
  obtain ⟨rfl, hC, -⟩ := hpc
  have W : Within y.g (y.g.touch o) none := within_touch o
  cases hs with
  | @posted _ _ _ r hr =>
    refine tells_post h hC.ne S rfl (sameSockets_touch o) W (.inr ⟨_, r, rfl⟩) fun L' => ?_
    cases v <;> trivial
  | postFailed =>
    exact tells_post h hC.ne S rfl (sameSockets_touch o) W (.inl rfl) fun L' => trivial

/-- The first post of the accept case goes to the socket of the new client either way. -/
theorem tells_acceptPost {v : Bool} {k c : Addr} {p : Post} (hpc : y.PcOk (.acceptPost k c p))
    (h : y.PcTold L (.acceptPost k c p)) (S : y.Settled L)
    (hs : WorkerStep v y (.acceptPost k c p) y' pc') :
    Tells y L (.acceptPost k c p) y'
      (((WorkerPc.acceptPost k c p).heard y).toList.foldl Log.hear L) pc' := by
  obtain ⟨-, hC, -, hacc⟩ := hpc
  have hsd : acceptPostSocket y.g k c p = (y.g.ctxt c).socket := by
    cases p with
    | send w => exact hacc
    | recv w => rfl
  have W : Within y.g ((y.g.touch k).touch c) none := (within_touch k).trans (within_touch c)
  have H : SameSockets y.g ((y.g.touch k).touch c) :=
    (sameSockets_touch k).trans (sameSockets_touch c)
  rw [WorkerPc.heard, hsd]
  cases hs with
  | @acceptPosted _ _ _ r hr =>
    refine tells_post h hC.ne S rfl H W (.inr ⟨_, r, rfl⟩) fun L' => ?_
    cases p <;> cases v <;> trivial
  | acceptPostFailed => exact tells_post h hC.ne S rfl H W (.inl rfl) fun L' => trivial

/-! ### Handlers -/

theorem DoneTold.accept {op : Operation} (h : y.DoneTold L op n) (ha : op.isAccept = true) :
    y.Lends L op.overlapped (owesFirst n) := by
  obtain ⟨key, overlapped, serial, call⟩ := op
  cases call with
  | acceptEx => exact h
  | post p => cases ha

/-- The handler that the I/O context calls for is the one of the operation that has completed. -/
theorem DoneTold.client {op : Operation} {io : PerIoContext} (h : y.DoneTold L op n)
    (hop : y.OpOk op) (hio : y.g.io op.overlapped = some io) (hn : n ≠ 0)
    (hne : io.ioOperation ≠ .clientIoAccept) : ∃ p : Post, p.operation = io.ioOperation ∧
      y.Talks L op.overlapped fun io t => Owes ((Call.post p).handler io n) t := by
  have hna := mt (hop.ioOperation_iff hio).mpr hne
  obtain ⟨key, overlapped, serial, call⟩ := op
  cases call with
  | acceptEx => exact absurd rfl hna
  | post p =>
    obtain ⟨-, io', hio', hp⟩ := hop.call
    obtain rfl := Option.some.inj (hio'.symm.trans hio)
    exact ⟨p, hp.symm, h hn⟩

/-- The handler has written to the I/O context of the client. -/
theorem Talks.handle {f : PerIoContext → PerIoContext × Post} {io : PerIoContext}
    (h : y.Talks L a fun io t => Owes (f io) t) (hio : y.g.io a = some io) :
    (y.setG (y.g.modifyIo a fun io => (f io).1)).Talks L a fun io' t => Owes (io', (f io).2) t := by
  refine h.imp (socket_modifyIo a a _) (fun _ h => h) fun sd io' _ _ hio' ho => ?_
  obtain rfl := Option.some.inj (hio'.symm.trans hio)
  exact ⟨_, io_modifyIo_self hio _, ho⟩

theorem tells_handle {k : Addr} {op : Operation} {ok : Bool} {io : PerIoContext}
    {f : PerIoContext → PerIoContext × Post} (hpc : y.PcOk (.dispatch k op n ok)) (S : y.Settled L)
    (hio : y.g.io op.overlapped = some io) (hne : io.ioOperation ≠ .clientIoAccept)
    (h : y.Talks L op.overlapped fun io t => Owes (f io) t) :
    Tells y L (.dispatch k op n ok) (y.setG (y.g.modifyIo op.overlapped fun io => (f io).1)) L
      (.post k op.overlapped (f io).2) := by
  have hna := mt (hpc.2.ioOperation_iff hio).mpr hne
  obtain ⟨-, hC, -⟩ := hpc.2.isClient (client_of_not_isAccept hna)
  obtain rfl : k = op.overlapped := Option.some.inj (hpc.1.symm.trans hpc.2.key)
  refine .of_keeps (.quiet (Nat.le_refl _) rfl) S (within_modifyIo _ _).toKeeps ?_ rfl rfl
    (fun _ => .inl) (h.handle hio)
  exact fun b hb => Option.some.inj hb ▸ hC.ne

theorem tells_dispatch {v : Bool} {k : Addr} {op : Operation} {ok : Bool}
    (hpc : y.PcOk (.dispatch k op n ok)) (h : y.PcTold L (.dispatch k op n ok)) (S : y.Settled L)
    (hs : WorkerStep v y (.dispatch k op n ok) y' pc') :
    Tells y L (.dispatch k op n ok) y' L pc' := by
  have hdone : y.DoneTold L op n := h
  have W : Within y.g (y.g.touch op.overlapped) none := within_touch _
  cases hs with
  | drop hio hop hd => exact .quiet S W rfl rfl rfl trivial
  | accept hio hop =>
    have hacc := (hpc.2.ioOperation_iff hio).mp hop
    obtain rfl : k = op.overlapped := Option.some.inj (hpc.1.symm.trans hpc.2.key)
    have ht : y.PcTold L (.setsockopt op.overlapped n) := hdone.accept hacc
    exact .quiet S W rfl rfl rfl (ht.quiet (hpc.2.listening hacc) W rfl rfl)
  | @read _ _ _ _ io hio hop hd =>
    have hne : io.ioOperation ≠ .clientIoAccept := by
      rw [hop]
      exact nofun
    obtain ⟨p, hp, ht⟩ := hdone.client hpc.2 hio hd.2 hne
    rw [hop] at hp
    cases p with
    | send w => cases hp
    | recv w => exact tells_handle hpc S hio hne ht
  | @write _ _ _ _ io hio hop hd =>
    have hne : io.ioOperation ≠ .clientIoAccept := by
      rw [hop]
      exact nofun
    obtain ⟨p, hp, ht⟩ := hdone.client hpc.2 hio hd.2 hne
    rw [hop] at hp
    cases p with
    | recv w => cases hp
    | send w => exact tells_handle hpc S hio hne ht

/-! ### The accept case -/

theorem tells_allocate {v : Bool} (hpc : y.PcOk (.allocate k n)) (h : y.PcTold L (.allocate k n))
    (S : y.Settled L) (hs : WorkerStep v y (.allocate k n) y' pc') :
    Tells y L (.allocate k n) y' L pc' := by
  have hL : y.Listening k := hpc
  cases hs with
  | noMemory _ hio =>
    exact .quiet S ((within_touch k).trans within_enter) rfl rfl rfl trivial
  | @allocated _ _ io x c _ hx hio hc =>
    obtain ⟨hA, -, hnew⟩ := ctxtAllocate_spec hc
    obtain ⟨hlisten, hsd, -, -⟩ :=
      ctxtAllocate_globals io.socketAccept .clientIoAccept x (y.g.touch k)
    have hsock : (ctxtAllocate io.socketAccept .clientIoAccept x (y.g.touch k)).1.sockets =
        y.g.sockets := by
      cases x <;> rfl
    generalize (ctxtAllocate io.socketAccept .clientIoAccept x (y.g.touch k)).1 = g' at *
    have hlive : y.g.live c = false := by
      rcases hnew with ⟨rfl, -⟩ | ⟨rfl, -⟩ <;> simpa using hx
    have hck : k ≠ c := by
      rintro rfl
      rw [hL.live] at hlive
      cases hlive
    have hk : g'.io k = y.g.io k := (hA k hck).io
    refine ⟨.quiet hsock.ge rfl, fun _ => .inl, ⟨?_, ?_⟩, S.keep hsock.ge rfl hsd ?_⟩
    · obtain ⟨listen, hlio, hl⟩ := h
      refine ⟨listen, hk.trans hlio, fun sd hsd => ?_⟩
      obtain ⟨hlt, hl⟩ := hl sd hsd
      exact ⟨hlt.trans_le hsock.ge, hl⟩
    · intro io' hio'
      rcases hnew with ⟨-, -, -, hi⟩ | ⟨-, -, hi⟩
      · exact Option.some.inj (hio'.symm.trans hi)
      · rw [show (y.setG g').g.io c = none from hi] at hio'
        cases hio'
    · intro k' io' hk' hio'
      obtain rfl : k = k' := Option.some.inj (hL.listen.symm.trans (hlisten.symm.trans hk'))
      exact S.length k io' hL.listen (hk.symm.trans hio')

theorem tells_associate {v : Bool} {s : Option Socket} {c : Addr}
    (hpc : y.PcOk (.associate k n s c)) (h : y.PcTold L (.associate k n s c)) (S : y.Settled L)
    (hs : WorkerStep v y (.associate k n s c) y' pc') :
    Tells y L (.associate k n s c) y' L pc' := by
  obtain ⟨hL, hacc, hne, hnew⟩ := hpc
  obtain ⟨⟨listen, hlio, hlend⟩, hblank⟩ := h
  cases hs with
  | associated ha =>
    obtain ⟨-, sd, rfl, hkey, rfl⟩ := associate_true ha
    rw [hlio, Option.bind_some] at hacc
    obtain ⟨hlt, -, hfirst⟩ := hlend sd hacc
    refine ⟨⟨Nat.le_refl _, nofun, fun _ => .inl rfl⟩, fun _ => .inl, ⟨hblank, fun hio => ?_⟩,
      fun sd' b hb => ?_, S.sdListen, S.silent, S.length, S.posted⟩
    · -- the accept socket is the socket of the new client
      rcases hnew with ⟨-, hs, -⟩ | ⟨-, hdead⟩
      · obtain ⟨io, hio⟩ := Option.isSome_iff_exists.mp hio
        exact ⟨listen, hlio, sd, io, hs, Function.update_self .., hio, hfirst⟩
      · rw [hdead] at hio
        cases hio
    · replace hb : Function.update y.key sd (some c) sd' = some b := hb
      rw [Function.update_apply] at hb
      split_ifs at hb with hsd
      · rw [hsd]
        exact hlt
      · exact S.key sd' b hb
  | associateFailed ha =>
    obtain ⟨-, rfl⟩ := associate_false ha
    have K : Keeps y.g (((y.g.setIocp false).touch c).free c) none := by
      constructor <;> intros <;> rfl
    exact .of_keeps (.quiet (Nat.le_refl _) rfl) S K nofun rfl rfl (fun _ => .inl) trivial

/-- The first block is copied to the new client. -/
theorem tells_prepare {v : Bool} {c : Addr} (hpc : y.PcOk (.prepare k n c))
    (h : y.PcTold L (.prepare k n c)) (S : y.Settled L)
    (hs : WorkerStep v y (.prepare k n c) y' pc') : Tells y L (.prepare k n c) y' L pc' := by
  cases hs with
  | @prepared _ _ _ listen io hk hio =>
    obtain ⟨hblank, hnew⟩ := h
    obtain ⟨listen', hk', ht⟩ := hnew (by rw [hio]; rfl)
    obtain rfl := Option.some.inj (hk'.symm.trans hk)
    obtain rfl := hblank io hio
    have W : Within y.g ((y.g.touch k).modifyIo c fun io => (listen'.clientIoAccept n io).1)
        (some c) := (within_touch k).trans (within_modifyIo c _)
    refine .of_keeps (.quiet (Nat.le_refl _) rfl) S W.toKeeps ?_ rfl rfl (fun _ => .inl) ?_
    · exact fun b hb => Option.some.inj hb ▸ hpc.2.1
    · refine ht.imp (socket_modifyIo c c _) (fun _ h => h) fun sd io' _ _ hio' ho => ?_
      obtain rfl := Option.some.inj (hio'.symm.trans hio)
      exact ⟨_, io_modifyIo_self (g := y.g.touch k) hio _, ho⟩

/-- The next accept socket is new. -/
theorem createAccept_told {ok : Bool} (h : y.createAccept ok = some y')
    (hk : y.g.pCtxtListenSocket = some k) (S : y.Settled L) :
    y.g.sockets ≤ y'.g.sockets ∧ y'.key = y.key ∧ y'.outstanding = y.outstanding ∧ y'.Settled L ∧
      y'.g.pCtxtListenSocket = some k ∧ (ok = true → y'.Lends L k fun _ t => t = .start) := by
  obtain ⟨a, io, ha, hio, rfl⟩ := createAccept_cases h
  obtain rfl : k = a := Option.some.inj (hk.symm.trans ha)
  have W : Within y.g ((y.g.createSocket ok).1.modifyIo k fun io =>
      { io with socketAccept := (y.g.createSocket ok).2 }) (some k) :=
    (within_createSocket ok).trans (within_modifyIo k _)
  have hio' : (y.g.createSocket ok).1.io k = some io :=
    ((within_createSocket (c := none) ok).io nofun).trans hio
  have hle : y.g.sockets ≤ (y.g.createSocket ok).1.sockets := by
    cases ok with
    | true => exact Nat.le_succ _
    | false => exact Nat.le_refl _
  refine ⟨hle, rfl, rfl, S.keep hle rfl W.sdListen fun k' io' hl hio'' => ?_,
    W.pCtxtListenSocket.trans hk, ?_⟩
  · obtain rfl : k = k' := Option.some.inj (hk.symm.trans (W.pCtxtListenSocket.symm.trans hl))
    rw [Shared.setG_g, io_modifyIo_self hio'] at hio''
    exact Option.some.inj hio'' ▸ S.length k io hk hio
  · rintro rfl
    refine ⟨_, io_modifyIo_self hio' _, fun sd hsd => ?_⟩
    obtain rfl := Option.some.inj hsd
    refine ⟨Nat.lt_succ_self _, ?_, S.silent _ (Nat.le_refl _)⟩
    cases hkey : y.key y.g.sockets with
    | none => exact hkey
    | some b => exact absurd (S.key _ b hkey) (Nat.lt_irrefl _)

theorem tells_createSocket {v : Bool} (hpc : y.PcOk .createSocket) (S : y.Settled L)
    (hs : WorkerStep v y .createSocket y' pc') : Tells y L .createSocket y' L pc' := by
  obtain ⟨k, hL⟩ := hpc
  cases hs with
  | created hc =>
    obtain ⟨hle, hk, ho, S', hl, hlend⟩ := createAccept_told hc hL.listen S
    refine ⟨.quiet hle hk, fun op hop => .inl (ho ▸ hop), fun k' hk' => ?_, S'⟩
    exact Option.some.inj (hl.symm.trans hk') ▸ hlend rfl
  | createFailed hc =>
    obtain ⟨hle, hk, ho, S', -⟩ := createAccept_told hc hL.listen S
    exact ⟨.quiet hle hk, fun op hop => .inl (ho ▸ hop), trivial, S'⟩

/-- AcceptEx is posted with the accept socket that was made for it. -/
theorem acceptEx_told {r : CallResult} (h : y.acceptEx r = some y')
    (hk : y.g.pCtxtListenSocket = some k) (S : y.Settled L)
    (ht : y.Lends L k fun _ t => t = .start) : y'.g.sockets = y.g.sockets ∧ y'.key = y.key ∧
      (∀ op ∈ y'.outstanding, op ∈ y.outstanding ∨ y'.OpTold L op) ∧ y'.Settled L := by
  obtain ⟨a, -, ha, -, rfl⟩ := acceptEx_cases h
  obtain rfl : k = a := Option.some.inj (hk.symm.trans ha)
  obtain ⟨io, hio, hlend⟩ := ht
  obtain ⟨b, hb⟩ := io_start hio y.g.sdListen .acceptEx r
  have H := sameSockets_start y y.g.sdListen k .acceptEx r
  have hkey : (y.start y.g.sdListen k .acceptEx r).key = y.key := start_key ..
  refine ⟨H.sockets, hkey, fun op hop => ?_, S.keep H.sockets.ge hkey H.sdListen ?_⟩
  · have hlend' : (y.start y.g.sdListen k .acceptEx r).Lends L k fun _ t => t = .start := by
      refine ⟨_, hb, fun sd hsd => ?_⟩
      rw [H.sockets, hkey]
      exact hlend sd hsd
    unfold start at hop
    split_ifs at hop with hr
    · rcases List.mem_append.mp hop with hop | hop
      · exact .inl hop
      · obtain rfl := List.mem_singleton.mp hop
        exact .inr hlend'
    · exact .inl hop
  · intro k' io' hl hio'
    obtain rfl : k = k' := Option.some.inj (hk.symm.trans (H.pCtxtListenSocket.symm.trans hl))
    obtain rfl := Option.some.inj (hio'.symm.trans hb)
    exact S.length k io hk hio

theorem tells_acceptEx {v : Bool} (hpc : y.PcOk .acceptEx) (h : y.PcTold L .acceptEx)
    (S : y.Settled L) (hs : WorkerStep v y .acceptEx y' pc') : Tells y L .acceptEx y' L pc' := by
  obtain ⟨k, hL⟩ := hpc
  cases hs with
  | acceptEx hc =>
    obtain ⟨hsock, hk, ho, S'⟩ := acceptEx_told hc hL.listen S (h k hL.listen)
    exact ⟨.quiet hsock.ge hk, ho, trivial, S'⟩

/-- The client is closed. -/
theorem tells_close {g' : Globals} (hC : y.IsClient a) (hc : closeClient a y.g = some g')
    (S : y.Settled L) (ht : (y.setG g').PcTold L pc') : Tells y L pc (y.setG g') L pc' := by
  obtain ⟨K, -⟩ := closeClient_spec hc
  obtain ⟨hs, -⟩ := closeClient_sockets hc
  refine .of_keeps (.quiet (Nat.le_refl _) rfl) S K ?_ hs rfl (fun _ => .inl) ht
  exact fun b hb => Option.some.inj hb ▸ hC.ne

/-- **The effect of a step.** -/
theorem tells_worker {v : Bool} (hs : WorkerStep v y pc y' pc') (hpc : y.PcOk pc)
    (h : y.PcTold L pc) (hport : ∀ p ∈ y.port, y.PacketTold L p) (S : y.Settled L) :
    Tells y L pc y' ((pc.heard y).toList.foldl Log.hear L) pc' := by
  cases pc with
  | getStatus =>
    cases hs with
    | quit hp => exact .quiet S (.refl _ _) rfl rfl rfl trivial
    | dequeue hp =>
      have ht := hport _ (List.mem_of_getElem? hp)
      exact .quiet S (.refl _ _) rfl rfl rfl ht
  | testEnd k op n ok =>
    cases hs with
    | endServer => exact .quiet S (.refl _ _) rfl rfl rfl trivial
    | serve => exact .quiet S (.refl _ _) rfl rfl rfl h
  | dispatch => exact tells_dispatch hpc h S hs
  | post => exact tells_reply hpc h S hs
  | close k =>
    cases hs with
    | closed _ hc => exact tells_close hpc hc S trivial
  | message k =>
    cases hs with
    | message => exact .quiet S (within_touch k) rfl rfl rfl trivial
  | setsockopt k n =>
    have W : Within y.g (y.g.touch k) none := within_touch k
    cases hs with
    | updated =>
      have ht : y.PcTold L (.allocate k n) := h
      exact .quiet S W rfl rfl rfl (ht.quiet hpc W rfl rfl)
    | updateFailed => exact .quiet S W rfl rfl rfl trivial
  | allocate => exact tells_allocate hpc h S hs
  | associate => exact tells_associate hpc h S hs
  | addTo k n c =>
    have ht : y.PcTold L (.prepare k n c) := h
    have W : Within y.g (ctxtListAddTo c y.g) none := within_ctxtListAddTo c _
    cases hs with
    | added =>
      have hsock := (sameSockets_addTo c y.g).sockets
      exact .quiet S W hsock rfl rfl (ht.quiet hpc W hsock rfl)
  | prepare => exact tells_prepare hpc h S hs
  | acceptPost => exact tells_acceptPost hpc h S hs
  | acceptClose c =>
    cases hs with
    | acceptClosed _ hc => exact tells_close hpc.2 hc S trivial
  | acceptMessage k =>
    cases hs with
    | acceptMessage => exact .quiet S (within_touch k) rfl rfl rfl trivial
  | createSocket => exact tells_createSocket hpc S hs
  | acceptEx => exact tells_acceptEx hpc h S hs
  | setEvent =>
    cases hs with
    | setEvent => exact .quiet S (.refl _ _) rfl rfl rfl trivial
  | returned => cases hs

end Effect

end Shared

end SelfStudy.Iocp
