import SelfStudy.Iocp.Startup
import SelfStudy.Lib.Machine

/-!
# Every client context has one keeper

Nothing locks a context while its I/O is handled. What keeps the workers apart is that a client
context always has exactly one keeper: an outstanding operation, a packet of the port, or a worker.
`Inv` says so, and that at most one keeper has the listening context; `Inv.worker` carries it over
any step of a worker, by the effect of the step.
-/

namespace SelfStudy.Iocp

open Lib Globals

namespace Server

/-- The invariant of the server. -/
structure Inv (s : Server) : Prop where
  startup : s.main.startup = true → s.y.Startup s.main ∧ ∀ pc ∈ s.workers, pc = .getStatus
  ops : ∀ op ∈ s.y.outstanding, s.y.OpOk op
  port : ∀ p ∈ s.y.port, s.y.PacketOk p
  workers : ∀ pc ∈ s.workers, s.y.PcOk pc
  keepers_le : ∀ a, s.inFlight a + s.holders a ≤ 1
  accepts_le : s.accepts ≤ 1
  kept : s.main.startup = false → s.y.g.bEndServer = false → ∀ a, s.y.g.live a = true →
    s.y.g.pCtxtListenSocket ≠ some a → s.inFlight a + s.holders a = 1
  numbered : s.y.g.Numbered

section

variable {s : Server} {y' : Shared} {pc pc' : WorkerPc} {i : ℕ} {a : Addr}

/-! ## Keepers at most once -/

theorem inFlight_pos_of_op {op : Operation} (h : op ∈ s.y.outstanding) (hc : op.client = some a) :
    1 ≤ s.inFlight a := by
  have : 0 < s.y.outstanding.countP (Operation.ofClient a) :=
    List.countP_pos_iff.mpr ⟨op, h, by simp [Operation.ofClient, hc]⟩
  simp only [inFlight, Shared.load]
  omega

theorem inFlight_pos_of_packet {op : Operation} {k : Addr} {n : ℕ} {ok : Bool}
    (h : .completed op k n ok ∈ s.y.port) (hc : op.client = some a) : 1 ≤ s.inFlight a := by
  have : 0 < s.y.port.countP (Packet.holds (Operation.ofClient a)) :=
    List.countP_pos_iff.mpr ⟨_, h, by simp [Packet.holds, Operation.ofClient, hc]⟩
  simp only [inFlight, Shared.load]
  omega

theorem accepts_pos_of_op {op : Operation} (h : op ∈ s.y.outstanding) (ha : op.isAccept = true) :
    1 ≤ s.y.load Operation.isAccept := by
  have : 0 < s.y.outstanding.countP Operation.isAccept := List.countP_pos_iff.mpr ⟨op, h, ha⟩
  simp only [Shared.load]
  omega

theorem accepts_pos_of_packet {op : Operation} {k : Addr} {n : ℕ} {ok : Bool}
    (h : .completed op k n ok ∈ s.y.port) (ha : op.isAccept = true) :
    1 ≤ s.y.load Operation.isAccept := by
  have : 0 < s.y.port.countP (Packet.holds Operation.isAccept) :=
    List.countP_pos_iff.mpr ⟨_, h, ha⟩
  simp only [Shared.load]
  omega

theorem holders_pos (hi : s.workers[i]? = some pc) (hc : pc.client = some a) :
    1 ≤ s.holders a :=
  List.countP_pos_iff.mpr ⟨pc, List.mem_of_getElem? hi, by simp [hc]⟩

theorem accepting_pos (hi : s.workers[i]? = some pc) (ha : pc.accepting = true) :
    1 ≤ s.workers.countP WorkerPc.accepting :=
  List.countP_pos_iff.mpr ⟨pc, List.mem_of_getElem? hi, ha⟩

/-- What a worker holds is not in flight. -/
theorem Inv.worker_apart (h : Inv s) (hi : s.workers[i]? = some pc) :
    (∀ b, pc.client = some b → s.inFlight b = 0) ∧
      (pc.accepting = true → s.y.load Operation.isAccept = 0) := by
  constructor
  · intro b hb
    have := holders_pos hi hb
    have := h.keepers_le b
    omega
  · intro ha
    have := accepting_pos hi ha
    have := h.accepts_le
    unfold accepts at this
    omega

/-- What a worker holds is not with an outstanding operation. -/
theorem Inv.op_apart (h : Inv s) (hi : s.workers[i]? = some pc) {op : Operation}
    (hop : op ∈ s.y.outstanding) : (∀ b, op.client = some b → pc.client ≠ some b) ∧
      (op.isAccept = true → pc.accepting = false) := by
  have hapart := h.worker_apart hi
  constructor
  · intro b hb e
    have := inFlight_pos_of_op hop hb
    have := hapart.1 b e
    omega
  · intro ha
    by_contra hpc
    have := accepts_pos_of_op hop ha
    have := hapart.2 (by simpa using hpc)
    omega

/-- What a worker holds is not with a packet of the port. -/
theorem Inv.queued_apart (h : Inv s) (hi : s.workers[i]? = some pc) {op : Operation} {k : Addr}
    {n : ℕ} {ok : Bool} (hp : .completed op k n ok ∈ s.y.port) :
    (∀ b, op.client = some b → pc.client ≠ some b) ∧
      (op.isAccept = true → pc.accepting = false) := by
  have hapart := h.worker_apart hi
  constructor
  · intro b hb e
    have := inFlight_pos_of_packet hp hb
    have := hapart.1 b e
    omega
  · intro ha
    by_contra hpc
    have := accepts_pos_of_packet hp ha
    have := hapart.2 (by simpa using hpc)
    omega

/-- No two workers hold the same. -/
theorem Inv.workers_apart (h : Inv s) {j : ℕ} {w : WorkerPc} (hi : s.workers[i]? = some pc)
    (hj : s.workers[j]? = some w) (hij : i ≠ j) :
    (∀ b, w.client = some b → pc.client ≠ some b) ∧
      (w.accepting = true → pc.accepting = false) := by
  constructor
  · intro b hb hpc
    have := two_le_countP (p := fun pc => pc.client == some b) hi hj hij (by simp [hpc])
      (by simp [hb])
    have := h.keepers_le b
    unfold holders at this
    omega
  · intro ha
    by_contra hpc
    have := two_le_countP hi hj hij (by simpa using hpc) ha
    have := h.accepts_le
    unfold accepts at this
    omega

/-- No two outstanding operations are with the same context. -/
theorem Inv.ops_apart (h : Inv s) {j : ℕ} {op op' : Operation} (hi : s.y.outstanding[i]? = some op)
    (hj : s.y.outstanding[j]? = some op') (hij : i ≠ j) :
    (∀ b, op'.client = some b → op.client ≠ some b) ∧
      (op'.isAccept = true → op.isAccept = false) := by
  constructor
  · intro b hb hop
    have := two_le_countP (p := Operation.ofClient b) hi hj hij (by simp [Operation.ofClient, hop])
      (by simp [Operation.ofClient, hb])
    have := h.keepers_le b
    simp only [inFlight, Shared.load] at this
    omega
  · intro ha
    by_contra hop
    have := two_le_countP (p := Operation.isAccept) hi hj hij (by simpa using hop) ha
    have := h.accepts_le
    simp only [accepts, Shared.load] at this
    omega

/-- No outstanding operation is with the context of a packet. -/
theorem Inv.packet_apart (h : Inv s) {op op' : Operation} {k : Addr} {n : ℕ} {ok : Bool}
    (hop : op ∈ s.y.outstanding) (hp : .completed op' k n ok ∈ s.y.port) :
    (∀ b, op'.client = some b → op.client ≠ some b) ∧
      (op'.isAccept = true → op.isAccept = false) := by
  constructor
  · intro b hb hc
    have h₁ : 0 < s.y.outstanding.countP (Operation.ofClient b) :=
      List.countP_pos_iff.mpr ⟨op, hop, by simp [Operation.ofClient, hc]⟩
    have h₂ : 0 < s.y.port.countP (Packet.holds (Operation.ofClient b)) :=
      List.countP_pos_iff.mpr ⟨_, hp, by simp [Packet.holds, Operation.ofClient, hb]⟩
    have := h.keepers_le b
    simp only [inFlight, Shared.load] at this
    omega
  · intro ha
    by_contra hc
    have h₁ : 0 < s.y.outstanding.countP Operation.isAccept :=
      List.countP_pos_iff.mpr ⟨op, hop, by simpa using hc⟩
    have h₂ : 0 < s.y.port.countP (Packet.holds Operation.isAccept) :=
      List.countP_pos_iff.mpr ⟨_, hp, ha⟩
    have := h.accepts_le
    simp only [accepts, Shared.load] at this
    omega

/-- What changes in the counts when worker `i` steps. -/
theorem keepers_set (hi : s.workers[i]? = some pc) (y' : Shared) (pc' : WorkerPc) (a : Addr) :
    ({ s with y := y', workers := s.workers.set i pc' } : Server).inFlight a +
      ({ s with y := y', workers := s.workers.set i pc' } : Server).holders a + s.y.total pc a =
    s.inFlight a + s.holders a + y'.total pc' a := by
  have := countP_set_add (fun pc => pc.client == some a) hi pc'
  simp only [inFlight, holders, Shared.total]
  omega

theorem accepts_set (hi : s.workers[i]? = some pc) (y' : Shared) (pc' : WorkerPc) :
    ({ s with y := y', workers := s.workers.set i pc' } : Server).accepts +
      s.y.totalAccepts pc = s.accepts + y'.totalAccepts pc' := by
  have := countP_set_add WorkerPc.accepting hi pc'
  simp only [accepts, Shared.totalAccepts]
  omega

/-- A block that is not live has no keeper, as far as the keeper of the listening context sees. -/
theorem Inv.no_keeper (h : Inv s) (hi : s.workers[i]? = some pc) (ha : pc.accepting = true)
    (hc : pc.client = none) (hl : s.y.g.live a = false) : s.inFlight a + s.holders a = 0 := by
  by_contra hne
  have hpos : 0 < s.y.outstanding.countP (Operation.ofClient a) ∨
      0 < s.y.port.countP (Packet.holds (Operation.ofClient a)) ∨ 0 < s.holders a := by
    simp only [inFlight, Shared.load] at hne
    omega
  have hdead : ∀ op, s.y.OpOk op → Operation.ofClient a op = true → False := by
    intro op hop hcl
    obtain ⟨-, hC, -⟩ := hop.isClient (eq_of_beq hcl)
    rw [hC.live] at hl
    cases hl
  rcases hpos with hpos | hpos | hpos
  · obtain ⟨op, hop, hcl⟩ := List.countP_pos_iff.mp hpos
    exact hdead op (h.ops op hop) hcl
  · obtain ⟨p, hp, hcl⟩ := List.countP_pos_iff.mp hpos
    cases p with
    | quit => cases hcl
    | completed op k n ok => exact hdead op (h.port _ hp).2 hcl
  · obtain ⟨pc₁, hpc₁, hcl⟩ := List.countP_pos_iff.mp hpos
    obtain ⟨j, hj⟩ := List.getElem?_of_mem hpc₁
    -- a worker that holds it is in the accept case too, where there is only one
    rcases ((h.workers pc₁ hpc₁).client (eq_of_beq hcl)).2 with hl' | ha₁
    · rw [hl'] at hl
      cases hl
    · have hij : i ≠ j := by
        rintro rfl
        obtain rfl := Option.some.inj (hi.symm.trans hj)
        rw [hc] at hcl
        cases hcl
      have := two_le_countP hi hj hij ha ha₁
      have := h.accepts_le
      simp only [accepts] at this
      omega

/-! ## The steps -/

/-- During the startup there is nothing to dequeue. -/
theorem Inv.worker_startup {v : Bool} (h : Inv s) (hi : s.workers[i]? = some pc)
    (hs : WorkerStep v s.y pc y' pc') : s.main.startup = false := by
  by_contra hst
  obtain ⟨hS, hw⟩ := h.startup (by simpa using hst)
  obtain rfl := hw pc (List.mem_of_getElem? hi)
  have hport := hS.port
  cases hs with
  | quit hp => simp [hport] at hp
  | dequeue hp => simp [hport] at hp

/-- During the startup nothing is outstanding. -/
theorem Inv.op_startup {op : Operation} (h : Inv s) (hop : op ∈ s.y.outstanding) :
    s.main.startup = false := by
  by_contra hst
  have hst : s.main.startup = true := by simpa using hst
  rw [(h.startup hst).1.nothing hst] at hop
  cases hop

/-- **A step of a worker.** -/
theorem Inv.worker {v : Bool} (h : Inv s) (hi : s.workers[i]? = some pc)
    (hs : WorkerStep v s.y pc y' pc') :
    Inv { s with y := y', workers := s.workers.set i pc' } := by
  have hmem := List.mem_of_getElem? hi
  have E := Shared.effect_worker hs (h.workers pc hmem) h.port
  have hmain := h.worker_startup hi hs
  have hkeep := keepers_set hi y' pc'
  have haccepts := accepts_set hi y' pc'
  refine ⟨fun hst => ?_, fun op hop => ?_, fun p hp => ?_, fun w hw => ?_, fun a => ?_, ?_,
    fun _ hend a ha hne => ?_, E.numbered h.numbered⟩
  · cases hmain.symm.trans hst
  · rcases E.outstanding op hop with hop' | hok
    · have hapart := h.op_apart hi hop'
      exact (h.ops op hop').frame E.frame hapart.1 hapart.2
    · exact hok
  · have hp' := E.port p hp
    cases p with
    | quit => trivial
    | completed op k n ok =>
      obtain ⟨hk, hok⟩ := h.port _ hp'
      have hapart := h.queued_apart hi hp'
      exact ⟨hk, hok.frame E.frame hapart.1 hapart.2⟩
  · obtain ⟨j, hj⟩ := List.getElem?_of_mem hw
    rcases mem_of_getElem?_set hj with ⟨rfl, rfl⟩ | ⟨hji, hj'⟩
    · exact E.ok
    · have hw := h.workers_apart hi hj' (Ne.symm hji)
      exact (h.workers w (List.mem_of_getElem? hj')).frame E.frame hw.1 hw.2
  · have := hkeep a
    have := h.keepers_le a
    rcases E.moves a with ⟨hm, -⟩ | ⟨hl, ha, hc, hm⟩ | ⟨hm, -⟩
    · omega
    · have := h.no_keeper hi ha hc hl
      omega
    · omega
  · have := h.accepts_le
    rcases E.accepts with ha | ⟨ha, -⟩ <;> omega
  · have := hkeep a
    have hend' : s.y.g.bEndServer = false := E.bEndServer.symm.trans hend
    have hne' : s.y.g.pCtxtListenSocket ≠ some a := by
      rw [← E.frame.pCtxtListenSocket]
      exact hne
    rcases E.moves a with ⟨hm, hl⟩ | ⟨hl, ha', hc, hm⟩ | ⟨hm, hl | he⟩
    · have := h.kept hmain hend' a (hl.symm.trans ha) hne'
      omega
    · have := h.no_keeper hi ha' hc hl
      omega
    · rw [show y'.g.live a = true from ha] at hl
      cases hl
    · rw [hend'] at he
      cases he

theorem finish_ioOperation {c : Call} {t : Transfer} {f : PerIoContext → PerIoContext}
    (h : c.finish t = some f) (io : PerIoContext) : (f io).ioOperation = io.ioOperation := by
  unfold Call.finish at h
  split at h
  · obtain ⟨-, h⟩ := Option.ite_none_right_eq_some.mp h
    exact Option.some.inj h ▸ rfl
  · obtain ⟨-, h⟩ := Option.ite_none_right_eq_some.mp h
    exact Option.some.inj h ▸ rfl
  · obtain ⟨-, h⟩ := Option.ite_none_right_eq_some.mp h
    exact Option.some.inj h ▸ rfl
  · cases h

/-- A completion is a step of the keeper of the operation's context. -/
theorem complete_spec {y : Shared} {t : Transfer} {ok : Bool} (h : y.complete i t ok = some y')
    (hops : ∀ op ∈ y.outstanding, y.OpOk op) : ∃ op, y.outstanding[i]? = some op ∧
      y'.outstanding = y.outstanding.eraseIdx i ∧
      y'.port = y.port ++ [.completed op op.overlapped t.size ok] ∧
      y.Frame y' op.client op.isAccept ∧ y'.OpOk op ∧
      Within y.g y'.g (some op.overlapped) ∧ y'.cleanupEvent = y.cleanupEvent := by
  obtain ⟨op, k, f, hop, hk, hf, rfl⟩ := Shared.complete_cases h
  have hok := hops op (List.mem_of_getElem? hop)
  obtain rfl : op.overlapped = k := Option.some.inj (hok.key.symm.trans hk)
  have W := within_modifyIo (g := y.g) op.overlapped fun io => { f io with pending := false }
  refine ⟨op, hop, rfl, rfl, ?_, ⟨hok.key, hok.serial.trans (W.serialAt _).symm, ?_⟩, W, rfl⟩
  · by_cases ha : op.isAccept = true
    · rw [Shared.client_of_isAccept ha, ha]
      exact Shared.Frame.of_within_listen W (hok.listening ha).listen rfl
    · have hc := Shared.client_of_not_isAccept ha
      obtain ⟨-, hC, -⟩ := hok.isClient hc
      rw [hc]
      exact Shared.Frame.of_within W rfl fun b hb => Option.some.inj hb ▸ hC.ne
  · obtain ⟨key, overlapped, serial, call⟩ := op
    cases call with
    | acceptEx =>
      have hL : y.Listening overlapped := hok.call
      obtain ⟨io, hio, ho⟩ := hL.op
      exact ⟨hL.live, hL.listen, hL.key,
        ⟨_, io_modifyIo_self hio _, (finish_ioOperation hf io).trans ho⟩, hL.hIocp⟩
    | post p =>
      obtain ⟨hC, io, hio, ho⟩ := hok.call
      have hC' := hC.modifyIo overlapped fun io => { f io with pending := false }
      exact ⟨⟨hC'.live, hC'.ne, hC'.key, hC'.io⟩, _, io_modifyIo_self hio _,
        (finish_ioOperation hf io).trans ho⟩

/-- What was outstanding is queued. -/
theorem complete_load {y : Shared} {t : Transfer} {ok : Bool} (h : y.complete i t ok = some y')
    (hops : ∀ op ∈ y.outstanding, y.OpOk op) (f : Operation → Bool) : y'.load f = y.load f := by
  obtain ⟨op, hop, ho, hp, -⟩ := complete_spec h hops
  have h₁ := countP_eraseIdx_add f hop
  have h₂ : y'.port.countP (Packet.holds f) =
      y.port.countP (Packet.holds f) + if f op then 1 else 0 := by
    rw [hp, List.countP_append, List.countP_singleton]
    rfl
  simp only [Shared.load, ho, h₂]
  omega

/-- **A completion.** -/
theorem Inv.complete {t : Transfer} {ok : Bool} (h : Inv s) (hs : s.y.complete i t ok = some y') :
    Inv { s with y := y' } := by
  obtain ⟨op, hop, ho, hp, F, hok, W, -⟩ := complete_spec hs h.ops
  have hmem := List.mem_of_getElem? hop
  have hmain := h.op_startup hmem
  have hload := complete_load hs h.ops
  have hin : ∀ b, ({ s with y := y' } : Server).inFlight b = s.inFlight b := fun b => hload _
  refine ⟨fun hst => ?_, fun op' hop' => ?_, fun p hp' => ?_, fun w hw => ?_, fun a => ?_, ?_,
    fun hst hend a ha hne => ?_, h.numbered.within W⟩
  · cases hmain.symm.trans hst
  · rw [show ({ s with y := y' } : Server).y.outstanding = _ from ho] at hop'
    obtain ⟨j, hji, hj⟩ := List.mem_eraseIdx_iff_getElem?.mp hop'
    have hops := h.ops_apart hop hj (Ne.symm hji)
    exact (h.ops op' (List.mem_of_getElem? hj)).frame F hops.1 hops.2
  · rw [show ({ s with y := y' } : Server).y.port = _ from hp, List.mem_append,
      List.mem_singleton] at hp'
    rcases hp' with hp' | rfl
    · cases p with
      | quit => trivial
      | completed op' k n ok' =>
        obtain ⟨hk, hok'⟩ := h.port _ hp'
        have hport := h.packet_apart hmem hp'
        exact ⟨hk, hok'.frame F hport.1 hport.2⟩
    · exact ⟨hok.key, hok⟩
  · obtain ⟨j, hj⟩ := List.getElem?_of_mem hw
    have hapart := h.op_apart hj hmem
    refine (h.workers w hw).frame F (fun b hb e => hapart.1 b e hb) fun ha => ?_
    by_contra hop
    have := hapart.2 (by simpa using hop)
    rw [this] at ha
    cases ha
  · rw [hin]
    exact h.keepers_le a
  · rw [accepts, hload]
    exact h.accepts_le
  · rw [hin]
    refine h.kept hst (W.bEndServer.symm.trans hend) a ?_ ?_
    · rw [← W.live]
      exact ha
    · rw [← W.pCtxtListenSocket]
      exact hne

/-- During the startup `main` knows its listening context. -/
theorem Inv.mainOk {m : MainPc} (h : Inv s) (hm : s.main = m) (hst : m.startup = true) :
    s.y.MainOk m := by
  subst hm
  exact (h.startup hst).1.main

/-- A step that leaves everyone's context alone. -/
theorem Inv.others {pc' : MainPc} {n : ℕ} (h : Inv s) (F : s.y.Frame y' none false)
    (ho : y'.outstanding = s.y.outstanding)
    (hp : y'.port = s.y.port ∨ s.main.startup = false ∧ y'.port = s.y.port ++ [.quit])
    (hn : y'.g.Numbered) (hend : y'.g.bEndServer = false → s.y.g.bEndServer = false)
    (hpc : pc' = s.main ∨ s.main.startup = false ∧ pc'.startup = false) :
    Inv { s with y := y', main := pc', handlers := n } := by
  have hload : ∀ f, y'.load f = s.y.load f := by
    intro f
    rcases hp with hp | ⟨-, hp⟩ <;> simp [Shared.load, ho, hp, Packet.holds]
  have hst : pc'.startup = true → pc' = s.main := by
    intro hst
    rcases hpc with hpc | ⟨-, hpc⟩
    · exact hpc
    · rw [hpc] at hst
      cases hst
  refine ⟨fun hs => ?_, fun op hop => ?_, fun p hp' => ?_, fun w hw => ?_, fun a => ?_, ?_,
    fun hs he a ha hne => ?_, hn⟩
  · obtain rfl := hst hs
    obtain ⟨hS, hw⟩ := h.startup hs
    refine ⟨hS.agree F ho ?_ hn hend, hw⟩
    rcases hp with hp | ⟨hf, -⟩
    · exact hp
    · rw [hf] at hs
      cases hs
  · exact (h.ops op (ho ▸ hop)).keep F
  · have hmem : p ∈ s.y.port ∨ p = .quit := by
      rcases hp with hp | ⟨-, hp⟩
      · exact .inl (hp ▸ hp')
      · rw [show y'.port = _ from hp] at hp'
        simpa using hp'
    rcases hmem with hmem | rfl
    · cases p with
      | quit => trivial
      | completed op k m ok =>
        obtain ⟨hk, hok⟩ := h.port _ hmem
        exact ⟨hk, hok.keep F⟩
    · trivial
  · exact (h.workers w hw).keep F
  · rw [inFlight, hload]
    exact h.keepers_le a
  · rw [accepts, hload]
    exact h.accepts_le
  · rw [inFlight, hload]
    have A := (F.listen rfl).2 a (Option.some_ne_none a).symm
    refine h.kept ?_ (hend he) a (A.live.symm.trans ha) ?_
    · rcases hpc with rfl | ⟨hf, -⟩
      · exact hs
      · exact hf
    · rw [← F.pCtxtListenSocket]
      exact hne

/-- The end of the startup. -/
theorem Inv.of_startup (h : s.y.Startup s.main) (hw : ∀ pc ∈ s.workers, pc = .getStatus) :
    Inv s := by
  have hnone : ∀ a, s.holders a = 0 ∧ s.workers.countP WorkerPc.accepting = 0 := by
    intro a
    constructor <;> refine List.countP_eq_zero.mpr fun pc hpc => ?_ <;> rw [hw pc hpc] <;> exact nofun
  have hload : ∀ a, s.inFlight a = 0 := by
    intro a
    rcases h.outstanding with ho | ⟨-, op, ho, hacc, -⟩
    · simp [inFlight, Shared.load, ho, h.port]
    · simp [inFlight, Shared.load, ho, h.port, Operation.ofClient, Shared.client_of_isAccept hacc]
  refine ⟨fun _ => ⟨h, hw⟩, fun op hop => ?_, fun p hp => ?_, fun w hw' => ?_, fun a => ?_, ?_,
    fun hst hend a ha hne => ?_, h.numbered⟩
  · rcases h.outstanding with ho | ⟨-, op', ho, -, hok⟩
    · rw [ho] at hop
      cases hop
    · rw [ho] at hop
      exact List.mem_singleton.mp hop ▸ hok
  · rw [h.port] at hp
    cases hp
  · rw [hw w hw']
    trivial
  · rw [hload, (hnone a).1]
    omega
  · rw [accepts, (hnone 0).2]
    rcases h.outstanding with ho | ⟨-, op, ho, hacc, -⟩
    · simp [Shared.load, ho, h.port]
    · simp [Shared.load, ho, h.port, hacc]
  · -- the listening context is the only one
    rcases h.owned hend a ha with hl | hl
    · exact absurd hl hne
    · rw [hl] at hst
      cases hst

theorem frame_endServer (y : Shared) : y.Frame (y.setG y.g.endServer) none false :=
  ⟨nofun, rfl, rfl, fun _ _ h => h, fun _ _ _ _ => ⟨rfl, rfl, rfl, rfl⟩,
    fun _ => ⟨rfl, fun _ _ => ⟨rfl, rfl, rfl, rfl⟩⟩⟩

theorem Inv.endServer {pc' : MainPc} {n : ℕ} (h : Inv s)
    (hpc : pc' = s.main ∨ s.main.startup = false ∧ pc'.startup = false) :
    Inv { s with y := s.y.setG s.y.g.endServer, main := pc', handlers := n } :=
  h.others (frame_endServer s.y) rfl (.inl rfl)
    ⟨h.numbered.lt, h.numbered.inj, h.numbered.nodup, h.numbered.closed⟩ nofun hpc

/-- **A step of `main`.** -/
theorem Inv.main_step {ans : Answer} {pc' : MainPc} {ws : List WorkerPc} (h : Inv s)
    (hs : MainStep s.dwThreadCount s.y s.main ans y' pc' ws) :
    Inv { s with y := y', main := pc', workers := s.workers ++ ws } := by
  by_cases hst : s.main.startup = true
  · obtain ⟨hS, hw⟩ := h.startup hst
    obtain ⟨hS', hws⟩ := hS.step hst hs
    refine .of_startup hS' fun w hw' => ?_
    rcases List.mem_append.mp hw' with hw' | hw'
    · exact hw w hw'
    · exact hws w hw'
  · have hf : s.main.startup = false := by simpa using hst
    have hrefl : s.y.Frame s.y none false := Shared.Frame.quiet (.refl _ _) rfl
    suffices Inv { s with y := y', main := pc', handlers := s.handlers } ∧ ws = [] by
      obtain ⟨h', rfl⟩ := this
      rw [List.append_nil]
      exact h'
    generalize hm : s.main = pc at hs
    cases hs with
    | waited => exact ⟨h.endServer (.inr ⟨hf, rfl⟩), rfl⟩
    | cleanup =>
      refine ⟨h.others hrefl rfl (.inl rfl) h.numbered id (.inr ⟨hf, ?_⟩), rfl⟩
      split_ifs <;> rfl
    | quitPosted =>
      refine ⟨h.others ?_ rfl (.inr ⟨hf, rfl⟩) h.numbered id (.inr ⟨hf, rfl⟩), rfl⟩
      exact Shared.Frame.quiet (.refl _ _) rfl
    | quitLost | quitsPosted =>
      exact ⟨h.others hrefl rfl (.inl rfl) h.numbered id (.inr ⟨hf, rfl⟩), rfl⟩
    | _ =>
      rw [hm] at hf
      cases hf

theorem inv_initial (n : ℕ) (v : Bool) : Inv (initial n v) := by
  refine .of_startup ⟨.inl rfl, rfl, ⟨rfl, rfl⟩, ?_, fun _ a ha => ?_⟩ nofun
  · exact ⟨nofun, nofun, List.nodup_nil, nofun⟩
  · cases ha

theorem Inv.step {s' : Server} {a : Action} (h : Inv s) (hs : s.step a = some s') : Inv s' := by
  cases step_cases hs with
  | worker hi hq => exact h.worker hi (WorkerPc.step_cases hq)
  | main hq => exact h.main_step (MainPc.step_cases hq)
  | complete hc => exact h.complete hc
  | ctrlEnd => exact h.endServer (.inl rfl)
  | ctrlEvent =>
    refine h.others ?_ rfl (.inl rfl) h.numbered id (.inl rfl)
    exact Shared.Frame.quiet (.refl _ _) rfl

theorem inv_of_reachable (hs : machine.Reachable s) : Inv s := by
  refine hs.invariant ?_ fun s a s' _ h _ hstep => h.step hstep
  rintro s ⟨n, v, rfl⟩
  exact inv_initial n v

/-! ## Every client has one keeper -/

/-- `a` is a live context that the accept case has created: not the listening context, which `main`
holds in a local variable until `UpdateCompletionPort` has returned it. -/
def ClientContext (s : Server) (a : Addr) : Prop :=
  s.y.g.live a = true ∧ s.y.g.pCtxtListenSocket ≠ some a ∧ s.main ≠ .associate a

/-- A NULL `g_hIOCP` is never given to the association of a socket. -/
theorem associate_hIocp (hs : machine.Reachable s) (hpc : (∃ a, s.main = .associate a) ∨
    ∃ k n sd c, .associate k n sd c ∈ s.workers) : s.y.g.hIocp = true := by
  have h := inv_of_reachable hs
  rcases hpc with ⟨a, hm⟩ | ⟨k, n, sd, c, hw⟩
  · exact (h.mainOk hm rfl).2.1
  · exact (h.workers _ hw).1.hIocp

theorem Inv.one_keeper (h : Inv s) (hend : s.y.g.bEndServer = false) (ha : s.ClientContext a) :
    s.inFlight a + s.holders a = 1 := by
  by_cases hst : s.main.startup = true
  · rcases (h.startup hst).1.owned hend a ha.1 with hl | hl
    · exact absurd hl ha.2.1
    · exact absurd hl ha.2.2
  · exact h.kept (by simpa using hst) hend a ha.1 ha.2.1

/-- **Ownership of the client contexts.** Before the shutdown a live client context has one operation
outstanding or one completion queued, or is held by one worker; `CloseClient` is called once at most
on a context; and the context of a queued completion is the one the operation was posted with. -/
theorem client_one_keeper (hs : machine.Reachable s) (hend : s.y.g.bEndServer = false) :
    (∀ a, s.ClientContext a →
      s.inFlight a = 1 ∧ s.holders a = 0 ∨ s.inFlight a = 0 ∧ s.holders a = 1) ∧
    s.y.g.closeCalls.Nodup ∧
    ∀ op k n ok, .completed op k n ok ∈ s.y.port →
      s.y.g.live k = true ∧ (s.y.g.ctxt k).serial = op.serial := by
  have h := inv_of_reachable hs
  refine ⟨fun a ha => ?_, h.numbered.nodup, fun op k n ok hp => ?_⟩
  · have := h.one_keeper hend ha
    omega
  · obtain ⟨hk, hok⟩ := h.port _ hp
    obtain rfl : op.overlapped = k := Option.some.inj (hok.key.symm.trans hk)
    refine ⟨?_, hok.serial.symm⟩
    by_cases ha : op.isAccept = true
    · exact (hok.listening ha).live
    · obtain ⟨-, hC, -⟩ := hok.isClient (Shared.client_of_not_isAccept ha)
      exact hC.live

/-- The startup, with the answers of the system. -/
def startup (first : CallResult) : List Action :=
  [.main (.call true), .main (.call true), .main .none, .main (.call true), .main (.call true),
    .main (.call true), .main (.heap (.ok 0)), .main (.call true), .main (.call true),
    .main (.call true), .main (.overlapped first)]

/-- A client connects with one byte, and the worker echoes it. -/
theorem client_one_keeper_echo : ∃ s, machine.Reachable s ∧ s.ClientContext 1 ∧
    s.inFlight 1 = 1 ∧ s.holders 1 = 0 := by
  obtain ⟨s, hs, hend, hc, hin⟩ : ∃ s, machine.run (initial 1 false) (startup .success ++
      [.complete 0 (.data [65] []) true, .worker 0 (.packet 0), .worker 0 .none, .worker 0 .none,
        .worker 0 (.call true), .worker 0 (.heap (.ok 1)), .worker 0 (.call true), .worker 0 .none,
        .worker 0 .none, .worker 0 (.overlapped (.error errorIoPending))]) = some s ∧
      s.y.g.bEndServer = false ∧ s.ClientContext 1 ∧ s.inFlight 1 = 1 :=
    ⟨_, rfl, rfl, ⟨rfl, by decide, by decide⟩, rfl⟩
  have hr : machine.Reachable s := Machine.Reachable.run (.init ⟨1, false, rfl⟩) hs
  rcases (client_one_keeper hr hend).1 1 hc with h | h
  · exact ⟨s, hr, hc, h⟩
  · rw [hin] at h
    cases h.1

end

end Server

end SelfStudy.Iocp
