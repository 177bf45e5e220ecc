import SelfStudy.Iocp.Dialogues

/-!
# Clients do not leak into each other

The listening context has one `Buffer`, which is never cleared, and the accept case copies more of it
than has been received. All the same the regions posted with WSASend for a client are a function of
the completions on its own socket (`regions_prefix`): in two runs that agree on these, whatever the
other clients do, a region of the one holds what the same region of the other holds (`isolated`).
-/

namespace SelfStudy.Iocp

open Lib Globals

/-! ## Completions and startup -/

namespace Shared

variable {y y' : Shared} {L : Log} {i : ℕ} {t : Transfer} {ok : Bool}

/-- What `main` knows of the dialogues as it creates the listening context. -/
def MainTold (y : Shared) (L : Log) : MainPc → Prop
  | .associate a => ∀ io, y.g.io a = some io → io.buffer.length = maxBuffSize
  | .acceptEx => ∀ k, y.g.pCtxtListenSocket = some k → y.Lends L k fun _ t => t = .start
  | _ => True

theorem MainTold.of_served {pc : MainPc} (h : pc.startup = false) : y.MainTold L pc := by
  cases pc with
  | wait | cleanup | postQuit | join => trivial
  | _ => cases h

/-- A completion calls for a region, and posts none. -/
theorem Settled.completed (h : y.Settled L) {sd : Socket} (hsd : sd < y.g.sockets) (x : Completion) :
    y.Settled (L.hear (sd, .completed x)) :=
  h.hear hsd ((h.posted sd).trans (List.prefix_append _ _))

/-- What is heard at the completion of AcceptEx is heard on the accept socket. -/
theorem complete_accept {k : Addr} {f : PerIoContext → PerIoContext}
    (ht : y.Lends L k fun _ t => t = .start) (hl : y.g.pCtxtListenSocket = some k)
    (S : y.Settled L) (hf : Call.acceptEx.finish t = some f)
    (hg : y'.g = y.g.modifyIo k fun io => { f io with pending := false }) (hk : y'.key = y.key) :
    let L' := ((((y.g.io k).bind PerIoContext.socketAccept).map fun sd =>
      (sd, Event.completed t.completion)).toList.foldl Log.hear L)
    y'.Lends L' k (owesFirst t.size) ∧ Confined y L y' L' none true ∧ y'.Settled L' := by
  intro L'
  obtain ⟨io, hio, hlend⟩ := ht
  obtain ⟨hlen, howes⟩ := owes_accepted (S.length k io hl hio) hf
  have hio' : y'.g.io k = some { f io with pending := false } := by
    rw [hg]
    exact io_modifyIo_self hio _
  have hs : y'.g.sockets = y.g.sockets := by rw [hg]; rfl
  have hsd : y'.g.sdListen = y.g.sdListen := by rw [hg]; rfl
  have hlen' : ∀ k' io', y'.g.pCtxtListenSocket = some k' → y'.g.io k' = some io' →
      io'.buffer.length = maxBuffSize := by
    intro k' io' hk' hio''
    rw [hg] at hk'
    obtain rfl : k = k' := Option.some.inj (hl.symm.trans hk')
    rw [hio'] at hio''
    exact Option.some.inj hio'' ▸ hlen
  have hacc : (f io).socketAccept = io.socketAccept := socketAccept_finish hf io
  cases he : io.socketAccept with
  | none =>
    have hL : L' = L := by
      show List.foldl _ L (Option.map _ ((y.g.io k).bind _)).toList = L
      rw [hio, Option.bind_some, he]
      rfl
    rw [hL]
    refine ⟨⟨_, hio', fun sd h => ?_⟩, .quiet hs.ge hk, S.keep hs.ge hk hsd hlen'⟩
    rw [show io.socketAccept = some sd from hacc.symm.trans h] at he
    cases he
  | some sd =>
    have hL : L' = L.hear (sd, .completed t.completion) := by
      show List.foldl _ L (Option.map _ ((y.g.io k).bind _)).toList = _
      rw [hio, Option.bind_some, he]
      rfl
    obtain ⟨hlt, hkey, hstart⟩ := hlend sd he
    rw [hL]
    refine ⟨⟨_, hio', fun sd' h => ?_⟩, ⟨hs.ge, nofun, fun sd' => ?_⟩,
      (S.completed hlt _).keep hs.ge hk hsd hlen'⟩
    · obtain rfl : sd = sd' := Option.some.inj (he.symm.trans (hacc.symm.trans h))
      refine ⟨hlt.trans_le hs.ge, (congrFun hk sd).trans hkey, ?_⟩
      rw [Log.hear, Function.update_self, hstart]
      exact howes
    · by_cases hne : sd' = sd
      · exact .inr (.inr ⟨rfl, hne ▸ hkey⟩)
      · exact .inl (Function.update_of_ne hne ..)

/-- What is heard at the completion of an operation on a client is heard on its socket. -/
theorem complete_client {a : Addr} {p : Post} {f : PerIoContext → PerIoContext}
    (ht : y.Talks L a fun io t => Waits io p t) (hne : y.g.pCtxtListenSocket ≠ some a)
    (S : y.Settled L) (hf : (Call.post p).finish t = some f)
    (hg : y'.g = y.g.modifyIo a fun io => { f io with pending := false }) (hk : y'.key = y.key) :
    let L' := (((y.g.ctxt a).socket.map fun sd =>
      (sd, Event.completed t.completion)).toList.foldl Log.hear L)
    (t.size ≠ 0 → y'.Talks L' a fun io x => Owes ((Call.post p).handler io t.size) x) ∧
      Confined y L y' L' (some a) false ∧ y'.Settled L' := by
  intro L'
  obtain ⟨sd, io, hsd, hkey, hio, hw⟩ := ht
  have hL : L' = L.hear (sd, .completed t.completion) := by
    show List.foldl _ L (Option.map _ (y.g.ctxt a).socket).toList = _
    rw [hsd]
    rfl
  have W : Within y.g y'.g (some a) := by
    rw [hg]
    exact within_modifyIo a _
  have hs : y'.g.sockets = y.g.sockets := by rw [hg]; rfl
  rw [hL]
  refine ⟨fun hn => ⟨sd, { f io with pending := false }, ?_, (congrFun hk sd).trans hkey, ?_, ?_⟩,
    ⟨hs.ge, fun _ => hk, (Confined.hear (l := false) hkey).log⟩, ?_⟩
  · rw [hg, socket_modifyIo]
    exact hsd
  · rw [hg]
    exact io_modifyIo_self hio _
  · rw [Log.hear, Function.update_self]
    exact hw.handler hf hn
  · refine (S.completed (S.key sd a hkey) _).keeps W.toKeeps (fun b hb => ?_) hs hk
    exact Option.some.inj hb ▸ hne

/-- **A completion.** -/
theorem complete_told (h : y.complete i t ok = some y') (hops : ∀ op ∈ y.outstanding, y.OpOk op)
    (ht : ∀ op ∈ y.outstanding, y.OpTold L op) (S : y.Settled L) :
    ∃ op, y.outstanding[i]? = some op ∧
      y'.DoneTold ((y.hears i t).toList.foldl Log.hear L) op t.size ∧
      Confined y L y' ((y.hears i t).toList.foldl Log.hear L) op.client op.isAccept ∧
      y'.Settled ((y.hears i t).toList.foldl Log.hear L) := by
  obtain ⟨op, k, f, hop, -, hf, rfl⟩ := complete_cases h
  have hok := hops op (List.mem_of_getElem? hop)
  have htold := ht op (List.mem_of_getElem? hop)
  refine ⟨op, hop, ?_⟩
  rw [hears, hop, Option.bind_some]
  obtain ⟨key, overlapped, serial, call⟩ := op
  cases call with
  | acceptEx => exact complete_accept htold (hok.listening rfl).listen S hf rfl rfl
  | post p => exact complete_client htold hok.call.1.ne S hf rfl rfl

/-- A socket is made, and is nobody's yet. -/
theorem Settled.createSocket (h : y.Settled L) (ok : Bool) : (y.setG ((y.g.createSocket ok).1.setListen
    (y.g.createSocket ok).2)).Settled L := by
  cases ok with
  | false => exact ⟨h.key, nofun, h.silent, h.length, h.posted⟩
  | true =>
    refine ⟨fun sd a hkey => (h.key sd a hkey).trans (Nat.lt_succ_self _), fun sd hsd => ?_,
      fun sd hle => h.silent sd ((Nat.le_succ _).trans hle), h.length, h.posted⟩
    exact Option.some.inj hsd ▸ Nat.lt_succ_self _

/-- **The startup.** -/
theorem startup_told {n : ℕ} {pc pc' : MainPc} {ans : Answer} {ws : List WorkerPc}
    (hS : y.Startup pc) (hpc : pc.startup = true) (ht : y.MainTold L pc) (S : y.Settled L)
    (hs : MainStep n y pc ans y' pc' ws) : y'.MainTold L pc' ∧ y'.Settled L ∧
      ∀ op ∈ y'.outstanding, op ∈ y.outstanding ∨ y'.OpTold L op := by
  have hmain := hS.main
  cases hs with
  | portCreated | portFailed | threadFailed | resolveFailed | bindFailed | ioctlFailed | configured =>
    exact ⟨trivial, ⟨S.key, S.sdListen, S.silent, S.length, S.posted⟩, fun _ => .inl⟩
  | threadCreated | threadsCreated | resolved | bound => exact ⟨trivial, S, fun _ => .inl⟩
  | listenCreated => exact ⟨trivial, S.createSocket true, fun _ => .inl⟩
  | listenFailed =>
    have S' := S.createSocket false
    exact ⟨trivial, ⟨S'.key, S'.sdListen, S'.silent, S'.length, S'.posted⟩, fun _ => .inl⟩
  | @allocated x a _ _ ha =>
    obtain ⟨-, -, hnew⟩ := ctxtAllocate_spec ha
    obtain ⟨hlisten, hsd, -, -⟩ := ctxtAllocate_globals y.g.sdListen .clientIoAccept x y.g
    have hsock : (ctxtAllocate y.g.sdListen .clientIoAccept x y.g).1.sockets = y.g.sockets := by
      cases x <;> rfl
    refine ⟨fun io hio => ?_, S.keep hsock.ge rfl hsd fun k io hk => ?_, fun _ => .inl⟩
    · rcases hnew with ⟨-, -, -, hi⟩ | ⟨-, -, hi⟩
      · rw [Option.some.inj (hio.symm.trans hi)]
        exact List.length_replicate ..
      · cases hio.symm.trans hi
    · -- there is no listening context yet
      cases hk.symm.trans (hlisten.trans hmain.1)
  | noMemory =>
    exact ⟨trivial, ⟨S.key, S.sdListen, S.silent, nofun, S.posted⟩, fun _ => .inl⟩
  | @associated a y₁ ha =>
    obtain ⟨-, sd, hsd, -, rfl⟩ := associate_true ha
    refine ⟨trivial, ⟨fun sd' b hb => ?_, S.sdListen, S.silent, fun k io hk hio => ?_, S.posted⟩,
      fun _ => .inl⟩
    · replace hb : Function.update y.key sd (some a) sd' = some b := hb
      rw [Function.update_apply] at hb
      split_ifs at hb with he
      · exact he ▸ S.sdListen sd hsd
      · exact S.key sd' b hb
    · obtain rfl : a = k := Option.some.inj hk
      exact ht io hio
  | associateFailed ha =>
    obtain ⟨-, rfl⟩ := associate_false ha
    exact ⟨trivial, ⟨S.key, S.sdListen, S.silent, nofun, S.posted⟩, fun _ => .inl⟩
  | created hc =>
    obtain ⟨a, ha, -⟩ := within_createAccept hc
    obtain ⟨-, -, ho, S', hl, hlend⟩ := createAccept_told hc ha S
    refine ⟨fun k hk => ?_, S', fun op hop => .inl (ho ▸ hop)⟩
    exact Option.some.inj (hl.symm.trans hk) ▸ hlend rfl
  | createFailed hc =>
    obtain ⟨a, ha, -⟩ := within_createAccept hc
    obtain ⟨-, -, ho, S', -⟩ := createAccept_told hc ha S
    exact ⟨trivial, ⟨S'.key, S'.sdListen, S'.silent, S'.length, S'.posted⟩,
      fun op hop => .inl (ho ▸ hop)⟩
  | acceptEx hc =>
    obtain ⟨a, ha, -⟩ := within_acceptEx hc
    obtain ⟨-, -, ho, S'⟩ := acceptEx_told hc ha S (ht a ha)
    exact ⟨trivial, S', ho⟩
  | waited | cleanup | quitPosted | quitLost | quitsPosted => cases hpc

end Shared

/-! ## The server -/

namespace Server

/-- The log of a record. -/
def log (h : List (Socket × Event)) : Log := h.foldl Log.hear fun _ => .start

/-- Every keeper knows the dialogue of the context it has. -/
structure Told (s : Server) (L : Log) : Prop where
  inv : Inv s
  ops : ∀ op ∈ s.y.outstanding, s.y.OpTold L op
  port : ∀ p ∈ s.y.port, s.y.PacketTold L p
  workers : ∀ pc ∈ s.workers, s.y.PcTold L pc
  main : s.y.MainTold L s.main
  settled : s.y.Settled L

variable {s s' : Server} {L : Log} {y' : Shared} {pc pc' : WorkerPc} {i : ℕ} {a : Action}

theorem Told.worker {v : Bool} (h : Told s L) (hi : s.workers[i]? = some pc)
    (hs : WorkerStep v s.y pc y' pc') :
    Told { s with y := y', workers := s.workers.set i pc' }
      ((pc.heard s.y).toList.foldl Log.hear L) := by
  have hmem := List.mem_of_getElem? hi
  have hpc := h.inv.workers pc hmem
  have E := Shared.effect_worker hs hpc h.inv.port
  have T := Shared.tells_worker hs hpc (h.workers pc hmem) h.port h.settled
  refine ⟨h.inv.worker hi hs, fun op hop => ?_, fun p hp => ?_, fun w hw => ?_,
    .of_served (h.inv.worker_startup hi hs), T.settled⟩
  · rcases T.outstanding op hop with hop' | hop'
    · have hapart := h.inv.op_apart hi hop'
      exact (h.ops op hop').frame (h.inv.ops op hop') E.frame T.confined hapart.1 hapart.2
    · exact hop'
  · have hp' := E.port p hp
    cases p with
    | quit => trivial
    | completed op k n ok =>
      have hapart := h.inv.queued_apart hi hp'
      have hdone : s.y.DoneTold L op n := h.port _ hp'
      exact hdone.frame (h.inv.port _ hp').2 E.frame T.confined hapart.1 hapart.2
  · obtain ⟨j, hj⟩ := List.getElem?_of_mem hw
    rcases mem_of_getElem?_set hj with ⟨rfl, rfl⟩ | ⟨hji, hj'⟩
    · exact T.told
    · have hmem' := List.mem_of_getElem? hj'
      have hapart := h.inv.workers_apart hi hj' (Ne.symm hji)
      exact (h.workers w hmem').frame (h.inv.workers w hmem') E.frame T.confined hapart.1 hapart.2

theorem Told.complete {t : Transfer} {ok : Bool} (h : Told s L)
    (hs : s.y.complete i t ok = some y') :
    Told { s with y := y' } ((s.y.hears i t).toList.foldl Log.hear L) := by
  obtain ⟨op, hop, ho, hp, F, -⟩ := complete_spec hs h.inv.ops
  obtain ⟨op', hop', hdone, C, S⟩ := Shared.complete_told hs h.inv.ops h.ops h.settled
  obtain rfl := Option.some.inj (hop.symm.trans hop')
  have hmem := List.mem_of_getElem? hop
  refine ⟨h.inv.complete hs, fun op' hop' => ?_, fun p hp' => ?_, fun w hw => ?_,
    .of_served (h.inv.op_startup hmem), S⟩
  · rw [show ({ s with y := y' } : Server).y.outstanding = _ from ho] at hop'
    obtain ⟨j, hji, hj⟩ := List.mem_eraseIdx_iff_getElem?.mp hop'
    have hmem' := List.mem_of_getElem? hj
    have hapart := h.inv.ops_apart hop hj (Ne.symm hji)
    exact (h.ops op' hmem').frame (h.inv.ops op' hmem') F C hapart.1 hapart.2
  · rw [show ({ s with y := y' } : Server).y.port = _ from hp, List.mem_append,
      List.mem_singleton] at hp'
    rcases hp' with hp' | rfl
    · cases p with
      | quit => trivial
      | completed op' k n ok' =>
        have hapart := h.inv.packet_apart hmem hp'
        have hdone' : s.y.DoneTold L op' n := h.port _ hp'
        exact hdone'.frame (h.inv.port _ hp').2 F C hapart.1 hapart.2
    · exact hdone
  · obtain ⟨j, hj⟩ := List.getElem?_of_mem hw
    have hapart := h.inv.op_apart hj hmem
    refine (h.workers w hw).frame (h.inv.workers w hw) F C (fun b hb e => hapart.1 b e hb)
      fun ha => ?_
    by_contra hacc
    have := hapart.2 (by simpa using hacc)
    rw [this] at ha
    cases ha

/-- A step that leaves everyone's context alone. -/
theorem Told.others {m : MainPc} {n : ℕ} (h : Told s L)
    (hinv : Inv { s with y := y', main := m, handlers := n }) (F : s.y.Frame y' none false)
    (C : Shared.Confined s.y L y' L none false) (ho : y'.outstanding = s.y.outstanding)
    (hp : ∀ p ∈ y'.port, p ∈ s.y.port ∨ p = .quit) (S : y'.Settled L) (hm : y'.MainTold L m) :
    Told { s with y := y', main := m, handlers := n } L := by
  refine ⟨hinv, fun op hop => ?_, fun p hp' => ?_, fun w hw => ?_, hm, S⟩
  · rw [show ({ s with y := y', main := m, handlers := n } : Server).y.outstanding = _ from ho]
      at hop
    exact (h.ops op hop).frame (h.inv.ops op hop) F C nofun fun _ => rfl
  · rcases hp p hp' with hp' | rfl
    · cases p with
      | quit => trivial
      | completed op k n ok =>
        have hdone : s.y.DoneTold L op n := h.port _ hp'
        exact hdone.frame (h.inv.port _ hp').2 F C nofun fun _ => rfl
    · trivial
  · exact (h.workers w hw).frame (h.inv.workers w hw) F C nofun fun _ => rfl

theorem Told.endServer {m : MainPc} {n : ℕ} (h : Told s L)
    (hinv : Inv { s with y := s.y.setG s.y.g.endServer, main := m, handlers := n })
    (hm : (s.y.setG s.y.g.endServer).MainTold L m) :
    Told { s with y := s.y.setG s.y.g.endServer, main := m, handlers := n } L := by
  have S := h.settled
  exact h.others hinv (frame_endServer s.y) (.quiet (Nat.le_refl _) rfl) rfl (fun _ => .inl)
    ⟨S.key, S.sdListen, S.silent, S.length, S.posted⟩ hm

theorem Told.main_step {ans : Answer} {m : MainPc} {ws : List WorkerPc} (h : Told s L)
    (hs : MainStep s.dwThreadCount s.y s.main ans y' m ws) :
    Told { s with y := y', main := m, workers := s.workers ++ ws } L := by
  have hinv := h.inv.main_step hs
  by_cases hst : s.main.startup = true
  · obtain ⟨hS, hw⟩ := h.inv.startup hst
    obtain ⟨hS', hws⟩ := hS.step hst hs
    obtain ⟨hm, S, ho⟩ := Shared.startup_told hS hst h.main h.settled hs
    refine ⟨hinv, fun op hop => ?_, fun p hp => ?_, fun w hw' => ?_, hm, S⟩
    · rcases ho op hop with hop | hop
      · rw [hS.nothing hst] at hop
        cases hop
      · exact hop
    · rw [show ({ s with y := y', main := m, workers := s.workers ++ ws } : Server).y.port = _
        from hS'.port] at hp
      cases hp
    · have hget : w = .getStatus := (List.mem_append.mp hw').elim (hw w) (hws w)
      rw [hget]
      trivial
  · have hf : s.main.startup = false := by simpa using hst
    obtain ⟨hg, hk, ho, hm, rfl⟩ := hs.served hf
    have hport : ∀ p ∈ y'.port, p ∈ s.y.port ∨ p = .quit := by
      intro p hp
      generalize s.main = pc at hf hs
      cases hs with
      | quitPosted => simpa using hp
      | waited | cleanup | quitLost | quitsPosted => exact .inl hp
      | _ => cases hf
    rw [List.append_nil] at hinv ⊢
    have S := h.settled
    rcases hg with hg | hg
    · have W : Within s.y.g y'.g none := by
        rw [hg]
        exact .refl _ _
      have hs : y'.g.sockets = s.y.g.sockets := by rw [hg]
      exact h.others (n := s.handlers) hinv (.quiet W hk) (.quiet hs.ge hk) ho hport
        (S.keeps W.toKeeps nofun hs hk) (.of_served hm)
    · have F : s.y.Frame y' none false := by
        have F := frame_endServer s.y
        exact ⟨nofun, by rw [hg]; rfl, by rw [hg]; rfl, fun _ _ e => hk ▸ e,
          fun b hb hl hne => hg ▸ F.client b hb hl hne, fun _ => hg ▸ F.listen rfl⟩
      have hs : y'.g.sockets = s.y.g.sockets := by rw [hg]; rfl
      refine h.others (n := s.handlers) hinv F (.quiet hs.ge hk) ho hport
        (S.keep hs.ge hk F.sdListen fun k io hl hio => ?_) (.of_served hm)
      rw [hg] at hl hio
      exact S.length k io hl hio

theorem Told.step (h : Told s L) (hs : s.step a = some s') :
    Told s' ((s.heard a).toList.foldl Log.hear L) := by
  have hinv := h.inv.step hs
  cases step_cases hs with
  | @worker i ans pc y' pc' hi hq =>
    rw [heard, hi, Option.bind_some]
    exact h.worker hi (WorkerPc.step_cases hq)
  | main hq => exact h.main_step (MainPc.step_cases hq)
  | complete hc => exact h.complete hc
  | ctrlEnd => exact h.endServer hinv h.main
  | ctrlEvent =>
    have S := h.settled
    exact h.others hinv (.quiet (.refl _ _) rfl) (.quiet (Nat.le_refl _) rfl) rfl
      (fun _ => .inl) ⟨S.key, S.sdListen, S.silent, S.length, S.posted⟩ h.main

theorem told_initial (n : ℕ) (v : Bool) : Told (initial n v) (log []) := by
  refine ⟨inv_initial n v, nofun, nofun, nofun, trivial, nofun, nofun, fun _ _ => rfl, nofun, ?_⟩
  exact fun _ => List.prefix_refl _

/-! ## Two runs -/

/-- What is heard on all sockets in a run of the server. -/
def history (dwThreadCount : ℕ) (bVerbose : Bool) (actions : List Action) : List (Socket × Event) :=
  machine.record heard (initial dwThreadCount bVerbose) actions

/-- What is heard on the socket of one client, in this order. -/
def events (sd : Socket) (h : List (Socket × Event)) : List Event :=
  h.filterMap fun x => if x.1 = sd then some x.2 else none

/-- The bytes received from the client and the counts of its sends. -/
def completions (sd : Socket) (h : List (Socket × Event)) : List Completion :=
  (events sd h).filterMap Event.completion

/-- The regions posted with WSASend for the client. -/
def regions (sd : Socket) (h : List (Socket × Event)) : List (List UInt8) :=
  (events sd h).filterMap Event.region

/-- Which of the events of the client are posts. -/
def order (sd : Socket) (h : List (Socket × Event)) : List Bool :=
  (events sd h).map fun e => e.region.isSome

theorem foldl_hear_apply (L : Log) (h : List (Socket × Event)) (sd : Socket) :
    h.foldl Log.hear L sd = (events sd h).foldl Talk.hear (L sd) := by
  induction h generalizing L with
  | nil => rfl
  | cons x h ih =>
    rw [List.foldl_cons, ih, Log.hear]
    by_cases hx : x.1 = sd
    · subst hx
      rw [Function.update_self]
      simp [events]
    · rw [Function.update_of_ne (Ne.symm hx)]
      simp [events, hx]

/-- **The regions are a function of the client's own completions.** -/
theorem regions_prefix (n : ℕ) (v : Bool) (as : List Action) (sd : Socket) :
    regions sd (history n v as) <+: echoes .accepting (completions sd (history n v as)) := by
  have hrun : ∃ t, Told t (log ([] ++ history n v as)) := by
    refine Machine.record_invariant (P := fun s h => Told s (log h)) (fun s a s' h hs hstep => ?_)
      (told_initial n v) as
    rw [log, List.foldl_append]
    exact hs.step hstep
  obtain ⟨t, ht⟩ := hrun
  have hp := ht.settled.posted sd
  rw [List.nil_append, log, foldl_hear_apply, Talk.foldl_hear_posted, Talk.foldl_hear_echoes] at hp
  exact hp

theorem length_regions (sd : Socket) (h : List (Socket × Event)) :
    (regions sd h).length = (order sd h).count true := by
  rw [regions, order, List.length_filterMap_eq_countP, List.count, List.countP_map]
  congr 1
  funext e
  cases e <;> rfl

/-- **Clients do not leak into each other.** In two runs of the server with one client each that has
the same completions, whatever the other clients do, the regions posted with WSASend for the client
hold the same bytes, each that is posted in both runs; and the same regions are posted if the posts
come at the same places. -/
theorem isolated (n n' : ℕ) (v v' : Bool) (as bs : List Action) (sd sd' : Socket)
    (h : completions sd (history n v as) = completions sd' (history n' v' bs)) :
    (∀ (i : ℕ) (r r' : List UInt8), (regions sd (history n v as))[i]? = some r →
      (regions sd' (history n' v' bs))[i]? = some r' → r = r') ∧
    (order sd (history n v as) = order sd' (history n' v' bs) →
      regions sd (history n v as) = regions sd' (history n' v' bs)) := by
  have hp := regions_prefix n v as sd
  have hp' := regions_prefix n' v' bs sd'
  rw [← h] at hp'
  constructor
  · intro i r r' hr hr'
    obtain ⟨u, hu⟩ := hp
    obtain ⟨u', hu'⟩ := hp'
    have hi := (List.getElem?_eq_some_iff.mp hr).1
    have hi' := (List.getElem?_eq_some_iff.mp hr').1
    have e : (regions sd (history n v as) ++ u)[i]? = (regions sd' (history n' v' bs) ++ u')[i]? := by
      rw [hu, hu']
    rw [List.getElem?_append_left hi, List.getElem?_append_left hi', hr, hr'] at e
    exact Option.some.inj e
  · intro ho
    have hlen : (regions sd (history n v as)).length = (regions sd' (history n' v' bs)).length := by
      rw [length_regions, length_regions, ho]
    exact (List.prefix_of_prefix_length_le hp hp' hlen.le).eq_of_length hlen

/-- A client is accepted with some bytes by the completion of the `i`th operation. -/
def acceptRun (i : ℕ) (a : Addr) (bytes : List UInt8) : List Action :=
  [.complete i (.data bytes []) true, .worker 0 (.packet 0), .worker 0 .none, .worker 0 .none,
    .worker 0 (.call true), .worker 0 (.heap (.ok a)), .worker 0 (.call true), .worker 0 .none,
    .worker 0 .none, .worker 0 (.overlapped .success), .worker 0 (.call true),
    .worker 0 (.overlapped .success)]

/-- A client sends `first`, and then another one a single byte, which fills half a unit. -/
def twoClients (first : List UInt8) : List Action :=
  startup .success ++ acceptRun 0 1 first ++ acceptRun 1 2 [65]

/-- Whether or not the second byte of the buffer is left over from the first client, the second
client gets its own byte back. -/
theorem isolated_odd :
    regions 2 (history 1 false (twoClients [1, 2, 3])) = [[65]] ∧
      regions 2 (history 1 false (twoClients [1, 2, 3])) =
        regions 2 (history 1 false (twoClients [9])) := by
  have hc : completions 2 (history 1 false (twoClients [1, 2, 3])) = [.received [65]] := rfl
  have hc' : completions 2 (history 1 false (twoClients [9])) = [.received [65]] := rfl
  have ho : order 2 (history 1 false (twoClients [1, 2, 3])) = [false, true] := rfl
  have ho' : order 2 (history 1 false (twoClients [9])) = [false, true] := rfl
  exact ⟨rfl, (isolated 1 1 false false _ _ 2 2 (hc.trans hc'.symm)).2 (ho.trans ho'.symm)⟩

end Server

end SelfStudy.Iocp
