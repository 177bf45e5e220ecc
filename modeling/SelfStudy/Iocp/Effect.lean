import SelfStudy.Iocp.Keepers

/-!
# What a step of a worker does to the contexts

`Effect` is what a step means for the keepers of the contexts: it writes to the worker's own client
only (and, in the accept case, to the listening context), and a client stays with the worker, goes
with the operation that is posted, is created in the accept case, or is freed. There is one lemma for
each statement of `WorkerThread`, and `effect_worker` puts them together.
-/

namespace SelfStudy.Iocp

open Lib Globals

/-! ## The effect of a step of a worker -/

namespace Shared

/-- How often the client `a` is in flight or in the hands of the worker. -/
def total (y : Shared) (pc : WorkerPc) (a : Addr) : ℕ :=
  y.load (Operation.ofClient a) + if pc.client == some a then 1 else 0

/-- The client `a` stays in keeping, or is created in the accept case, or is freed or given up. -/
def Moves (y : Shared) (pc : WorkerPc) (y' : Shared) (pc' : WorkerPc) (a : Addr) : Prop :=
  y'.total pc' a = y.total pc a ∧ y'.g.live a = y.g.live a ∨
    (y.g.live a = false ∧ pc.accepting = true ∧ pc.client = none ∧
      y'.total pc' a = y.total pc a + 1) ∨
    (y'.total pc' a + 1 = y.total pc a ∧ (y'.g.live a = false ∨ y.g.bEndServer = true))

/-- How often AcceptEx is in flight or in the hands of the worker. -/
def totalAccepts (y : Shared) (pc : WorkerPc) : ℕ :=
  y.load Operation.isAccept + if pc.accepting then 1 else 0

/-- AcceptEx stays in keeping, or it is given up in the shutdown, or the call of it leaves nothing
behind. -/
def Accepts (y : Shared) (pc : WorkerPc) (y' : Shared) (pc' : WorkerPc) : Prop :=
  y'.totalAccepts pc' = y.totalAccepts pc ∨
    y'.totalAccepts pc' + 1 = y.totalAccepts pc ∧
      (y.g.bEndServer = true ∨ y'.cleanupEvent = true ∨ pc = .acceptEx ∧ y' = y)

/-- What a step of a worker from `pc` to `pc'` does to the contexts and their keepers. -/
structure Effect (y : Shared) (pc : WorkerPc) (y' : Shared) (pc' : WorkerPc) : Prop where
  frame : y.Frame y' pc.client pc.accepting
  outstanding : ∀ op ∈ y'.outstanding, op ∈ y.outstanding ∨ y'.OpOk op
  port : ∀ p ∈ y'.port, p ∈ y.port
  ok : y'.PcOk pc'
  moves : ∀ a, y.Moves pc y' pc' a
  accepts : y.Accepts pc y' pc'
  numbered : y.g.Numbered → y'.g.Numbered
  bEndServer : y'.g.bEndServer = y.g.bEndServer

section

variable {y y' : Shared} {c : Option Addr} {l : Bool} {a : Addr} {pc pc' : WorkerPc}

theorem agree_of_within {g g' : Globals} (W : Within g g' c) (hc : c ≠ some a) : g.Agree g' a where
  live := by rw [W.live]
  serial := W.serialAt a
  socket := W.socket a hc
  io := W.io hc

theorem Frame.of_within (W : Within y.g y'.g c) (hk : y'.key = y.key)
    (hne : ∀ a, c = some a → y.g.pCtxtListenSocket ≠ some a) : y.Frame y' c l where
  ne := hne
  pCtxtListenSocket := W.pCtxtListenSocket
  sdListen := W.sdListen
  key sd k h := by rw [hk]; exact h
  client b hb _ _ := agree_of_within W hb
  listen _ := ⟨W.hIocp, fun b hb => agree_of_within W hb⟩

theorem Frame.quiet (W : Within y.g y'.g none) (hk : y'.key = y.key) : y.Frame y' none l :=
  .of_within W hk nofun

theorem Frame.of_within_listen (W : Within y.g y'.g (some a)) (ha : y.g.pCtxtListenSocket = some a)
    (hk : y'.key = y.key) : y.Frame y' none true where
  ne := nofun
  pCtxtListenSocket := W.pCtxtListenSocket
  sdListen := W.sdListen
  key sd k h := by rw [hk]; exact h
  client b _ _ hb := agree_of_within W fun e => hb (ha.trans e)
  listen := nofun

theorem Frame.of_close {g' : Globals} (h : closeClient a y.g = some g') (ha : y.IsClient a) :
    y.Frame (y.setG g') (some a) l := by
  obtain ⟨K, hlive, hI, -⟩ := closeClient_spec h
  have hA : ∀ b, some a ≠ some b → y.g.Agree g' b := by
    intro b hb
    refine ⟨?_, K.serialAt b, K.socket b hb, K.io hb⟩
    rw [hlive, Function.update_of_ne]
    exact fun e => hb (congrArg some e.symm)
  refine ⟨?_, K.pCtxtListenSocket, K.sdListen, fun _ _ h => h, fun b hb _ _ => hA b hb,
    fun _ => ⟨hI, hA⟩⟩
  intro b hb
  obtain rfl := Option.some.inj hb
  exact ha.ne

theorem load_congr (ho : y'.outstanding = y.outstanding) (hp : y'.port = y.port)
    (f : Operation → Bool) : y'.load f = y.load f := by
  rw [load, ho, hp, load]

theorem load_snoc {op : Operation} (ho : y'.outstanding = y.outstanding ++ [op])
    (hp : y'.port = y.port) (f : Operation → Bool) :
    y'.load f = y.load f + if f op then 1 else 0 := by
  rw [load, ho, hp, load, List.countP_append, List.countP_singleton]
  omega

/-- The worker goes on with the client it has. -/
theorem Effect.of_within {d : Option Addr} (W : Within y.g y'.g d)
    (F : y.Frame y' pc.client pc.accepting) (ho : y'.outstanding = y.outstanding)
    (hp : y'.port = y.port) (hok : y'.PcOk pc') (hc : pc'.client = pc.client)
    (ha : pc'.accepting = pc.accepting) : Effect y pc y' pc' where
  frame := F
  outstanding op h := .inl (ho ▸ h)
  port p h := hp ▸ h
  ok := hok
  moves a := by
    left
    rw [total, load_congr ho hp, hc, W.live]
    exact ⟨rfl, rfl⟩
  accepts := by
    left
    rw [totalAccepts, load_congr ho hp, ha]
    rfl
  numbered h := h.within W
  bEndServer := W.bEndServer

/-- The worker posts an operation, and its client goes with it. -/
theorem Effect.of_post {d : Option Addr} {op : Operation} (W : Within y.g y'.g d)
    (F : y.Frame y' pc.client pc.accepting) (ho : y'.outstanding = y.outstanding ++ [op])
    (hp : y'.port = y.port) (hop : y'.OpOk op) (hok : y'.PcOk pc') (hc : op.client = pc.client)
    (hc' : pc'.client = none)
    (ha : (if op.isAccept then 1 else 0) + (if pc'.accepting then 1 else 0) =
      if pc.accepting then 1 else 0) : Effect y pc y' pc' where
  frame := F
  outstanding op' h := by
    rw [ho, List.mem_append, List.mem_singleton] at h
    rcases h with h | rfl
    · exact .inl h
    · exact .inr hop
  port p h := hp ▸ h
  ok := hok
  moves a := by
    left
    rw [total, load_snoc ho hp, Operation.ofClient, hc, hc', W.live]
    exact ⟨rfl, rfl⟩
  accepts := by
    left
    rw [totalAccepts, load_snoc ho hp, totalAccepts]
    omega
  numbered h := h.within W
  bEndServer := W.bEndServer

/-- The worker closes its client. -/
theorem Effect.of_close {g' : Globals} (h : closeClient a y.g = some g') (hcl : y.IsClient a)
    (hok : (y.setG g').PcOk pc') (hc : pc.client = some a) (hc' : pc'.client = none)
    (ha : pc'.accepting = pc.accepting) : Effect y pc (y.setG g') pc' := by
  obtain ⟨K, hlive, -, -⟩ := closeClient_spec h
  refine ⟨?_, fun _ => .inl, fun _ => id, hok, fun b => ?_, ?_, fun hn => hn.close hcl.live h,
    K.bEndServer⟩
  · rw [hc]
    exact Frame.of_close h hcl
  · by_cases e : b = a
    · obtain rfl := e
      right; right
      refine ⟨?_, .inl ?_⟩
      · rw [total, total, hc, hc']
        simp [load]
      · show g'.live b = false
        rw [hlive, Function.update_self]
    · left
      refine ⟨?_, ?_⟩
      · rw [total, total, hc, hc']
        simp [load, Ne.symm e]
      · show g'.live b = y.g.live b
        rw [hlive, Function.update_of_ne e]
  · left
    rw [totalAccepts, ha]
    rfl

/-! ### The statements -/

theorem IsClient.ne_listening {k : Addr} (h : y.IsClient a) (hk : y.Listening k) : a ≠ k := by
  rintro rfl
  exact h.ne hk.listen

theorem IsClient.modifyIo (h : y.IsClient a) (b : Addr) (f : PerIoContext → PerIoContext) :
    (y.setG (y.g.modifyIo b f)).IsClient a where
  live := h.live
  ne := h.ne
  key := by
    obtain ⟨sd, hsd, hk⟩ := h.key
    exact ⟨sd, (socket_modifyIo b a f).trans hsd, hk⟩
  io := by
    show ((y.g.modifyIo b f).io a).isSome
    rw [io_modifyIo]
    split_ifs <;> simp [h.io]

theorem HasOp.modifyIo {o : IoOperation} {f : PerIoContext → PerIoContext} {io : PerIoContext}
    (h : y.g.io a = some io) (hf : (f io).ioOperation = o) :
    (y.setG (y.g.modifyIo a f)).HasOp a o := ⟨f io, io_modifyIo_self h f, hf⟩

theorem load_erase {p : Packet} {j : ℕ} (hp : y.port[j]? = some p) (f : Operation → Bool) :
    ({ y with port := y.port.eraseIdx j } : Shared).load f + (if p.holds f then 1 else 0) =
      y.load f := by
  have := countP_eraseIdx_add (Packet.holds f) hp
  simp only [load]
  omega

/-- The dequeue: what the packet kept the worker keeps. -/
theorem effect_dequeue {p : Packet} {j : ℕ} (hp : y.port[j]? = some p)
    (hok : ({ y with port := y.port.eraseIdx j } : Shared).PcOk pc)
    (hc : ∀ a, p.holds (Operation.ofClient a) = (pc.client == some a))
    (ha : p.holds Operation.isAccept = pc.accepting) :
    Effect y .getStatus { y with port := y.port.eraseIdx j } pc where
  frame := Frame.quiet (.refl _ _) rfl
  outstanding op h := .inl h
  port q hq := List.mem_of_mem_eraseIdx hq
  ok := hok
  moves a := by
    left
    have := load_erase hp (Operation.ofClient a)
    rw [hc] at this
    exact ⟨this, rfl⟩
  accepts := by
    have := load_erase hp Operation.isAccept
    rw [ha] at this
    exact .inl this
  numbered := id
  bEndServer := rfl

/-- A worker that sees `g_bEndServer` leaves with what it holds. -/
theorem effect_endServer {k : Addr} {op : Operation} {n : ℕ} {ok : Bool}
    (h : y.PcOk (.testEnd k op n ok)) (hend : y.g.bEndServer = true) :
    Effect y (.testEnd k op n ok) y .returned where
  frame := Frame.of_within (.refl _ _) rfl fun _ hc => (h.client hc).1
  outstanding op h := .inl h
  port q hq := hq
  ok := trivial
  moves a := by
    by_cases hc : op.client == some a
    · right; right
      refine ⟨?_, .inr hend⟩
      simp [total, WorkerPc.client, hc]
    · left
      refine ⟨?_, rfl⟩
      simp [total, WorkerPc.client, hc]
  accepts := by
    by_cases ha : op.isAccept = true
    · right
      exact ⟨by simp [totalAccepts, WorkerPc.accepting, ha], .inl hend⟩
    · left
      simp [totalAccepts, WorkerPc.accepting, ha]
  numbered := id
  bEndServer := rfl

/-- The handler of a completion on a client, which writes to the I/O context and goes on to post. -/
theorem effect_handle {k : Addr} {op : Operation} {n : ℕ} {ok : Bool} {io : PerIoContext}
    {f : PerIoContext → PerIoContext} {p : Post} (h : y.PcOk (.dispatch k op n ok))
    (hio : y.g.io op.overlapped = some io) (hop : io.ioOperation ≠ .clientIoAccept)
    (hf : (f io).ioOperation = p.operation) :
    Effect y (.dispatch k op n ok) (y.setG (y.g.modifyIo op.overlapped f))
      (.post k op.overlapped p) := by
  have hna : ¬ op.isAccept = true := fun e => hop ((h.2.ioOperation_iff hio).mpr e)
  have hcl := client_of_not_isAccept hna
  obtain ⟨-, hC, -⟩ := h.2.isClient hcl
  obtain rfl : k = op.overlapped := Option.some.inj (h.1.symm.trans h.2.key)
  have hc : (WorkerPc.dispatch op.overlapped op n ok).client = some op.overlapped := hcl
  have W : Within y.g (y.g.modifyIo op.overlapped f) (some op.overlapped) := within_modifyIo _ _
  refine .of_within W ?_ rfl rfl ?_ hcl.symm ?_
  · rw [hc]
    exact Frame.of_within W rfl fun a ha => (h.client (hc.trans ha)).1
  · exact ⟨rfl, hC.modifyIo _ _, HasOp.modifyIo hio hf⟩
  · simpa [WorkerPc.accepting] using hna

theorem effect_dispatch {v : Bool} {k : Addr} {op : Operation} {n : ℕ} {ok : Bool}
    (h : y.PcOk (.dispatch k op n ok)) (hs : WorkerStep v y (.dispatch k op n ok) y' pc') :
    Effect y (.dispatch k op n ok) y' pc' := by
  have hk : k = op.overlapped := Option.some.inj (h.1.symm.trans h.2.key)
  have F : y.Frame (y.setG (y.g.touch op.overlapped)) op.client op.isAccept :=
    Frame.of_within (within_touch _) rfl fun _ hc => (h.client hc).1
  have W : Within y.g (y.g.touch op.overlapped) none := within_touch _
  cases hs with
  | drop hio hop hd =>
    have hna : ¬ op.isAccept = true := fun e => hop ((h.2.ioOperation_iff hio).mpr e)
    have hcl := client_of_not_isAccept hna
    obtain ⟨-, hC, -⟩ := h.2.isClient hcl
    refine .of_within W F rfl rfl ?_ ?_ ?_
    · exact PcOk.keep (hk ▸ hC) (.quiet W rfl)
    · rw [hk]
      exact hcl.symm
    · simpa [WorkerPc.accepting] using hna
  | accept hio hop =>
    have hacc := (h.2.ioOperation_iff hio).mp hop
    refine .of_within W F rfl rfl ?_ (client_of_isAccept hacc).symm hacc.symm
    exact PcOk.keep (hk ▸ h.2.listening hacc) (.quiet W rfl)
  | read hio hop hd =>
    refine effect_handle h hio ?_ rfl
    rw [hop]
    exact nofun
  | write hio hop hd =>
    refine effect_handle h hio ?_ ?_
    · rw [hop]
      exact nofun
    · unfold PerIoContext.clientIoWrite
      split_ifs <;> rfl

/-- A successful post by the keeper of the client `a`. -/
theorem effect_start {g : Globals} {sd : Option Socket} {p : Post} {r : CallResult}
    (hr : r.starts = true) (W : Within y.g g none) (hC : y.IsClient a)
    (hop : y.HasOp a p.operation) (hsd : sd = (y.g.ctxt a).socket)
    (hc : pc.client = some a) (hc' : pc'.client = none) (ha : pc'.accepting = pc.accepting)
    (hok : ∀ y', Frame y y' (some a) false → y'.PcOk pc') :
    Effect y pc ((y.setG g).start sd a (.post p) r) pc' := by
  obtain ⟨sd', hsd', hk⟩ := hC.key
  obtain ⟨io, hio, ho⟩ := hop
  have hstart : (y.setG g).start sd a (.post p) r =
      { y with
        g := g.modifyIo a fun io => { io with pending := true }
        outstanding := y.outstanding ++ [⟨sd.bind y.key, a, (g.ctxt a).serial, .post p⟩] } :=
    if_pos hr
  rw [hstart]
  have W' : Within y.g (g.modifyIo a fun io => { io with pending := true }) (some a) :=
    (W.weaken _).trans (within_modifyIo a _)
  have F : ∀ l, Frame y { y with
      g := g.modifyIo a fun io => { io with pending := true }
      outstanding := y.outstanding ++ [⟨sd.bind y.key, a, (g.ctxt a).serial, .post p⟩] }
      (some a) l :=
    fun l => Frame.of_within W' rfl fun b hb => Option.some.inj hb ▸ hC.ne
  have hgio : g.io a = some io := (W.io nofun).trans hio
  refine .of_post W' (hc ▸ F _) rfl rfl ?_ (hok _ (F _)) hc.symm hc' ?_
  · refine ⟨?_, (W'.serialAt a).symm ▸ W.serialAt a, ⟨?_, ?_, ?_, ?_⟩, _, io_modifyIo_self hgio _, ho⟩
    · show sd.bind y.key = some a
      rw [hsd, hsd']
      exact hk
    · rw [W'.live]
      exact hC.live
    · rw [W'.pCtxtListenSocket]
      exact hC.ne
    · refine ⟨sd', ?_, hk⟩
      rw [socket_modifyIo, W.socket a nofun]
      exact hsd'
    · rw [io_modifyIo_self hgio]
      rfl
  · rw [ha]
    exact Nat.zero_add _

theorem effect_post {v : Bool} {k o : Addr} {p : Post} (h : y.PcOk (.post k o p))
    (hs : WorkerStep v y (.post k o p) y' pc') : Effect y (.post k o p) y' pc' := by
  obtain ⟨rfl, hC, hop⟩ := h
  cases hs with
  | posted hr =>
    refine effect_start hr (within_touch _) hC hop rfl rfl ?_ ?_ fun y' _ => ?_ <;> cases v
    all_goals first | rfl | trivial
  | postFailed =>
    have W : Within y.g (y.g.touch o) (some o) := within_touch o
    refine .of_within W ?_ rfl rfl (PcOk.keep hC (.quiet (within_touch o) rfl)) rfl rfl
    exact Frame.of_within W rfl fun a ha => Option.some.inj ha ▸ hC.ne

theorem effect_close {v : Bool} {k : Addr} (h : y.PcOk (.close k))
    (hs : WorkerStep v y (.close k) y' pc') : Effect y (.close k) y' pc' := by
  cases hs with
  | closed _ hc => exact .of_close hc h trivial rfl rfl rfl

theorem effect_acceptClose {v : Bool} {c : Addr} (h : y.PcOk (.acceptClose c))
    (hs : WorkerStep v y (.acceptClose c) y' pc') : Effect y (.acceptClose c) y' pc' := by
  cases hs with
  | acceptClosed _ hc =>
    obtain ⟨⟨k, hk⟩, hC⟩ := h
    exact .of_close hc hC ⟨k, (hk.agree (Frame.of_close hc hC)).1⟩ rfl rfl rfl

/-- The new context of the accept case. -/
theorem effect_allocate {v : Bool} {k : Addr} {n : ℕ} (h : y.PcOk (.allocate k n))
    (hs : WorkerStep v y (.allocate k n) y' pc') : Effect y (.allocate k n) y' pc' := by
  have hL : y.Listening k := h
  cases hs with
  | noMemory _ hio =>
    have W : Within y.g (y.g.touch k).enter none := (within_touch k).trans within_enter
    exact .of_within W (Frame.quiet W rfl) rfl rfl trivial rfl rfl
  | @allocated _ _ io x c _ hx hio hc =>
    have hnum : y.g.Numbered → (ctxtAllocate _ _ x (y.g.touch k)).1.Numbered :=
      fun hn => (hn.within (within_touch (c := none) k)).allocate hc
    obtain ⟨hA, -, hnew⟩ := ctxtAllocate_spec hc
    obtain ⟨hlisten, hsd, hI, hend⟩ :=
      ctxtAllocate_globals io.socketAccept .clientIoAccept x (y.g.touch k)
    generalize (ctxtAllocate io.socketAccept .clientIoAccept x (y.g.touch k)).1 = g' at *
    have hlive : y.g.live c = false := by
      rcases hnew with ⟨rfl, -⟩ | ⟨rfl, -⟩ <;> simpa using hx
    have hne : ∀ b, y.g.live b = true → b ≠ c := by
      rintro b hb rfl
      exact absurd hb (by rw [hlive]; exact nofun)
    have hA' : ∀ b, b ≠ c → y.g.Agree g' b :=
      fun b hb => ⟨(hA b hb).live, (hA b hb).serial, (hA b hb).socket, (hA b hb).io⟩
    have A := hA' k (hne k hL.live)
    refine ⟨?_, fun _ => .inl, fun _ => id, ⟨?_, ?_, ?_, ?_⟩, fun b => ?_, .inl rfl, hnum,
      hend⟩
    · exact ⟨nofun, hlisten, hsd, fun _ _ h => h, fun b _ hb _ => hA' b (hne b hb), nofun⟩
    · obtain ⟨sd, hsd', hk⟩ := hL.key
      exact ⟨A.live.trans hL.live, hlisten.trans hL.listen, ⟨sd, hsd.trans hsd', hk⟩,
        hL.op.agree A, hI.trans hL.hIocp⟩
    · show (g'.io k).bind _ = _
      rw [A.io, hio]
      rfl
    · show g'.pCtxtListenSocket ≠ some c
      rw [hlisten]
      intro e
      exact hne k hL.live (Option.some.inj (hL.listen.symm.trans e))
    · rcases hnew with ⟨-, hl, hs, hi⟩ | ⟨-, hl, hi⟩
      · exact .inl ⟨hl, hs, by rw [show (y.setG g').g.io c = _ from hi]; rfl⟩
      · exact .inr ⟨hl, hi⟩
    · by_cases e : b = c
      · right; left
        subst e
        refine ⟨hlive, rfl, rfl, ?_⟩
        simp [total, load, WorkerPc.client]
      · left
        refine ⟨?_, (hA' b e).live⟩
        simp [total, load, WorkerPc.client, Ne.symm e]

theorem effect_associate {v : Bool} {k : Addr} {n : ℕ} {sd : Option Socket} {c : Addr}
    (h : y.PcOk (.associate k n sd c)) (hs : WorkerStep v y (.associate k n sd c) y' pc') :
    Effect y (.associate k n sd c) y' pc' := by
  obtain ⟨hL, hacc, hne, hnew⟩ := h
  cases hs with
  | associated ha =>
    obtain ⟨-, sd, rfl, hkey, rfl⟩ := associate_true ha
    -- a socket that has a key keeps it
    have hmono : ∀ s b, y.key s = some b → Function.update y.key sd (some c) s = some b := by
      intro s b hb
      rw [Function.update_of_ne]
      · exact hb
      · rintro rfl
        rw [hkey] at hb
        cases hb
    have hA : ∀ b, y.g.Agree y.g b := fun b => ⟨rfl, rfl, rfl, rfl⟩
    refine ⟨?_, fun _ => .inl, fun _ => id, ⟨?_, hne, ?_⟩, fun b => .inl ⟨rfl, rfl⟩, .inl rfl,
      id, rfl⟩
    · refine ⟨fun b hb => Option.some.inj hb ▸ hne, rfl, rfl, hmono, fun b _ _ _ => hA b, nofun⟩
    · obtain ⟨sd', hsd', hk⟩ := hL.key
      exact ⟨hL.live, hL.listen, ⟨sd', hsd', hmono _ _ hk⟩, hL.op, hL.hIocp⟩
    · rcases hnew with ⟨hl, hs, hi⟩ | hdead
      · exact .inl ⟨⟨hl, hne, ⟨sd, hs, Function.update_self ..⟩, hi⟩, hacc.trans hs.symm⟩
      · exact .inr hdead
  | associateFailed ha =>
    obtain ⟨-, rfl⟩ := associate_false ha
    have hK : Keeps y.g (((y.g.setIocp false).touch c).free c) none := by
      constructor <;> intros <;> rfl
    have hlive : ∀ b, b ≠ c → (((y.g.setIocp false).touch c).free c).live b = y.g.live b :=
      fun b hb => Function.update_of_ne hb ..
    refine ⟨?_, fun _ => .inl, fun _ => id, trivial, fun b => ?_, .inl rfl, fun hn => ?_, rfl⟩
    · refine ⟨fun b hb => Option.some.inj hb ▸ hne, rfl, rfl, fun _ _ h => h, fun b hb _ _ => ?_,
        nofun⟩
      exact ⟨hlive b fun e => hb (congrArg some e.symm), rfl, rfl, rfl⟩
    · by_cases e : b = c
      · right; right
        subst e
        refine ⟨?_, .inl (Function.update_self ..)⟩
        simp [total, load, WorkerPc.client]
      · left
        refine ⟨?_, hlive b e⟩
        simp [total, load, WorkerPc.client, Ne.symm e]
    · refine hn.shrink hK (fun b hb => ?_) rfl
      by_cases e : b = c
      · rw [e] at hb
        exact absurd hb (by simp)
      · exact (hlive b e).symm.trans hb

theorem effect_addTo {v : Bool} {k c : Addr} {n : ℕ} (h : y.PcOk (.addTo k n c))
    (hs : WorkerStep v y (.addTo k n c) y' pc') : Effect y (.addTo k n c) y' pc' := by
  cases hs with
  | added _ =>
    have W : Within y.g (ctxtListAddTo c y.g) none := within_ctxtListAddTo c _
    refine .of_within W ?_ rfl rfl (PcOk.keep h (.quiet W rfl)) rfl rfl
    exact Frame.of_within (W.weaken _) rfl fun a ha => (h.client ha).1

/-- The first block is copied to the new client, which from here on has an I/O context. -/
theorem effect_prepare {v : Bool} {k c : Addr} {n : ℕ} (h : y.PcOk (.prepare k n c))
    (hs : WorkerStep v y (.prepare k n c) y' pc') : Effect y (.prepare k n c) y' pc' := by
  cases hs with
  | @prepared _ _ _ listen io hk hio =>
    obtain ⟨hL, -, ⟨hC, hacc⟩ | ⟨-, hdead⟩⟩ := h
    swap
    · rw [hdead] at hio
      cases hio
    have hop : (listen.clientIoAccept n io).1.ioOperation =
        (listen.clientIoAccept n io).2.operation := by
      unfold PerIoContext.clientIoAccept
      split_ifs <;> rfl
    -- the listening context is another one
    have hck := hC.ne_listening hL
    have hm : ∀ f, ((y.g.touch k).modifyIo c f).io k = y.g.io k := by
      intro f
      rw [io_modifyIo, if_neg (Ne.symm hck)]
      rfl
    have W : Within y.g ((y.g.touch k).modifyIo c fun io => (listen.clientIoAccept n io).1)
        (some c) := (within_touch k).trans (within_modifyIo c _)
    refine .of_within W (Frame.of_within W rfl fun b hb => ?_) rfl rfl ⟨?_, ?_, ?_, ?_⟩ rfl rfl
    · exact Option.some.inj hb ▸ hC.ne
    · obtain ⟨io', hio', ho⟩ := hL.op
      exact ⟨hL.live, hL.listen, hL.key, ⟨io', (hm _).trans hio', ho⟩, hL.hIocp⟩
    · exact IsClient.modifyIo (y := y.setG (y.g.touch k)) ⟨hC.live, hC.ne, hC.key, hC.io⟩ c _
    · exact HasOp.modifyIo (y := y.setG (y.g.touch k)) hio hop
    · show (((y.g.touch k).modifyIo c _).io k).bind _ = _
      rw [hm]
      exact hacc.trans (socket_modifyIo c c _).symm

theorem effect_acceptPost {v : Bool} {k c : Addr} {p : Post}
    (h : y.PcOk (.acceptPost k c p)) (hs : WorkerStep v y (.acceptPost k c p) y' pc') :
    Effect y (.acceptPost k c p) y' pc' := by
  obtain ⟨hL, hC, hop, hacc⟩ := h
  have W : Within y.g ((y.g.touch k).touch c) none := (within_touch k).trans (within_touch c)
  cases hs with
  | acceptPosted hr =>
    refine effect_start hr W hC hop ?_ rfl ?_ ?_ fun y' F => ?_
    · cases p with
      | send w => exact hacc
      | recv w => rfl
    · cases p <;> cases v <;> rfl
    · cases p <;> cases v <;> rfl
    · have hL' := (hL.agree F).1
      cases p <;> cases v <;> first | exact hL' | exact ⟨k, hL'⟩
  | acceptPostFailed =>
    refine .of_within W (Frame.of_within (W.weaken _) rfl fun b hb => ?_) rfl rfl ?_ rfl rfl
    · exact Option.some.inj hb ▸ hC.ne
    · exact PcOk.keep ⟨⟨k, hL⟩, hC⟩ (.quiet W rfl)

/-- `CreateAcceptSocket` writes to the listening context, which its caller keeps. -/
theorem createAccept_spec {ok : Bool} (h : y.createAccept ok = some y') (hL : y.Listening a) :
    Within y.g y'.g (some a) ∧ y'.key = y.key ∧ y'.outstanding = y.outstanding ∧
      y'.port = y.port ∧ y'.Listening a := by
  obtain ⟨b, -, hb, -, rfl⟩ := createAccept_cases h
  obtain rfl : a = b := Option.some.inj (hL.listen.symm.trans hb)
  have W : Within y.g ((y.g.createSocket ok).1.modifyIo a fun io =>
      { io with socketAccept := (y.g.createSocket ok).2 }) (some a) :=
    (within_createSocket ok).trans (within_modifyIo a _)
  refine ⟨W, rfl, rfl, rfl, ?_⟩
  obtain ⟨sd, hsd, hk⟩ := hL.key
  obtain ⟨io, hio, ho⟩ := hL.op
  refine ⟨W.live ▸ hL.live, W.pCtxtListenSocket.trans hL.listen, ⟨sd, W.sdListen.trans hsd, hk⟩,
    ⟨_, io_modifyIo_self ?_ _, ho⟩, W.hIocp.trans hL.hIocp⟩
  exact ((within_createSocket (c := none) ok).io nofun).trans hio

theorem effect_createSocket {v : Bool} (h : y.PcOk .createSocket)
    (hs : WorkerStep v y .createSocket y' pc') : Effect y .createSocket y' pc' := by
  obtain ⟨k, hL⟩ := h
  cases hs with
  | created hc =>
    obtain ⟨W, hk, ho, hp, hL'⟩ := createAccept_spec hc hL
    exact .of_within W (Frame.of_within_listen W hL.listen hk) ho hp ⟨k, hL'⟩ rfl rfl
  | createFailed hc =>
    obtain ⟨W, hk, ho, hp, -⟩ := createAccept_spec hc hL
    exact .of_within W (Frame.of_within_listen W hL.listen hk) ho hp trivial rfl rfl

/-- AcceptEx leaves an operation on the listening context, or nothing at all. -/
theorem acceptEx_spec {r : CallResult} (h : y.acceptEx r = some y') (hL : y.Listening a) :
    Within y.g y'.g (some a) ∧ y'.key = y.key ∧ y'.port = y.port ∧
      if r.starts then ∃ op, y'.outstanding = y.outstanding ++ [op] ∧ op.isAccept = true ∧
        y'.OpOk op
      else y' = y := by
  obtain ⟨b, -, hb, -, rfl⟩ := acceptEx_cases h
  obtain rfl : a = b := Option.some.inj (hL.listen.symm.trans hb)
  unfold start
  split_ifs with hr
  · have W := within_modifyIo (g := y.g) a fun io => { io with pending := true }
    refine ⟨W, rfl, rfl, _, rfl, rfl, ?_, (W.serialAt a).symm, ?_⟩
    · obtain ⟨sd, hsd, hk⟩ := hL.key
      show y.g.sdListen.bind y.key = some a
      rw [hsd]
      exact hk
    · obtain ⟨io, hio, ho⟩ := hL.op
      exact ⟨hL.live, hL.listen, hL.key, ⟨_, io_modifyIo_self hio _, ho⟩, hL.hIocp⟩
  · exact ⟨.refl _ _, rfl, rfl, rfl⟩

theorem effect_acceptEx {v : Bool} (h : y.PcOk .acceptEx)
    (hs : WorkerStep v y .acceptEx y' pc') : Effect y .acceptEx y' pc' := by
  obtain ⟨k, hL⟩ := h
  cases hs with
  | acceptEx hc =>
    obtain ⟨W, hk, hp, ho⟩ := acceptEx_spec hc hL
    have F := Frame.of_within_listen W hL.listen hk
    split_ifs at ho with hr
    · obtain ⟨op, ho, hacc, hop⟩ := ho
      refine .of_post W F ho hp hop trivial (client_of_isAccept hacc) rfl ?_
      rw [hacc]
      rfl
    · -- the accept operation is lost
      subst ho
      exact ⟨F, fun _ => .inl, fun _ => id, trivial, fun b => .inl ⟨rfl, rfl⟩,
        .inr ⟨rfl, .inr (.inr ⟨rfl, rfl⟩)⟩, id, rfl⟩

/-- **The effect of a step.** -/
theorem effect_worker {v : Bool} (hs : WorkerStep v y pc y' pc') (h : y.PcOk pc)
    (hport : ∀ p ∈ y.port, y.PacketOk p) : Effect y pc y' pc' := by
  cases pc with
  | getStatus =>
    cases hs with
    | quit hp => exact effect_dequeue hp trivial (fun _ => rfl) rfl
    | dequeue hp =>
      obtain ⟨hk, hop⟩ := hport _ (List.mem_of_getElem? hp)
      exact effect_dequeue hp ⟨hk, hop.keep (.quiet (.refl _ _) rfl)⟩ (fun _ => rfl) rfl
  | testEnd k op n ok =>
    cases hs with
    | endServer hend => exact effect_endServer h hend
    | serve hend =>
      have F : y.Frame y op.client op.isAccept :=
        Frame.of_within (.refl _ _) rfl fun a ha => (h.client ha).1
      exact .of_within (.refl _ none) F rfl rfl h rfl rfl
  | dispatch => exact effect_dispatch h hs
  | post => exact effect_post h hs
  | close => exact effect_close h hs
  | acceptClose => exact effect_acceptClose h hs
  | allocate => exact effect_allocate h hs
  | associate => exact effect_associate h hs
  | addTo => exact effect_addTo h hs
  | prepare => exact effect_prepare h hs
  | acceptPost => exact effect_acceptPost h hs
  | createSocket => exact effect_createSocket h hs
  | acceptEx => exact effect_acceptEx h hs
  | message k =>
    cases hs with
    | message =>
      have W : Within y.g (y.g.touch k) none := within_touch k
      exact .of_within W (Frame.quiet W rfl) rfl rfl trivial rfl rfl
  | setsockopt k n =>
    have W : Within y.g (y.g.touch k) none := within_touch k
    have F : y.Frame (y.setG (y.g.touch k)) none true := Frame.quiet W rfl
    cases hs with
    | updated _ =>
      exact .of_within W F rfl rfl (PcOk.keep h (.quiet W rfl)) rfl rfl
    | updateFailed _ => exact .of_within W F rfl rfl trivial rfl rfl
  | acceptMessage k =>
    cases hs with
    | acceptMessage =>
      have W : Within y.g (y.g.touch k) none := within_touch k
      refine .of_within W (Frame.quiet W rfl) rfl rfl ?_ rfl rfl
      exact PcOk.keep ⟨k, h⟩ (.quiet W rfl)
  | setEvent =>
    cases hs with
    | setEvent =>
      exact ⟨Frame.quiet (.refl _ _) rfl, fun _ => .inl, fun _ => id, trivial,
        fun b => .inl ⟨rfl, rfl⟩, .inr ⟨rfl, .inr (.inl rfl)⟩, id, rfl⟩
  | returned => cases hs

end

end Shared

end SelfStudy.Iocp
