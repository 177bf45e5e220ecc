import SelfStudy.TestIocp.Effect

/-!
# Who has an object

Every `OverlappedPerIo` is in at most one place, and every socket in one. `Inv` is what holds in
every state before the shutdown, whatever has been left behind on the way. The steps of a worker, of
`test_iocp_demo` and of the kernel keep it by their effect.
-/

namespace SelfStudy.TestIocp

open Lib

def MainPc.holds : MainPc → List ℕ
  | .post _ q => q.holds
  | _ => []

def MainPc.sockets : MainPc → List ℕ
  | .post _ q => q.sockets
  | _ => []

theorem MainPc.holds_next (k : ℕ) (q' : Option PostPc) :
    (q'.elim (MainPc.loop (k + 1)) (MainPc.post k)).holds = q'.elim [] PostPc.holds := by
  cases q' with
  | none =>
    show (MainPc.loop (k + 1)).holds = []
    unfold MainPc.loop
    split_ifs <;> rfl
  | some q' => rfl

theorem MainPc.sockets_next (k : ℕ) (q' : Option PostPc) :
    (q'.elim (MainPc.loop (k + 1)) (MainPc.post k)).sockets = q'.elim [] PostPc.sockets := by
  cases q' with
  | none =>
    show (MainPc.loop (k + 1)).sockets = []
    unfold MainPc.loop
    split_ifs <;> rfl
  | some q' => rfl

def Shared.MainOk (y : Shared) : MainPc → Prop
  | .post _ q => y.PostOk q
  | _ => True

theorem Effect.mainOk {y y' : Shared} {hs hs' ss ss' : List ℕ} {lost : Option ℕ}
    (e : Effect y hs ss y' hs' ss' lost) {pc : MainPc} (hd : ∀ o ∈ pc.holds, o ∉ hs)
    (h : y.MainOk pc) : y'.MainOk pc := by
  cases pc with
  | post k q => exact e.postOk hd h
  | wait | closeHandle | returned => trivial

namespace Server

variable (s : Server)

/-- How many threads have the object `o` in their hands. -/
def holders (o : ℕ) : ℕ := (s.workers.map fun pc => pc.holds.count o).sum + s.main.holds.count o

/-- How many threads have the socket `n` in their hands. -/
def socketHolders (n : ℕ) : ℕ :=
  (s.workers.map fun pc => pc.sockets.count n).sum + s.main.sockets.count n

/-- In how many places the object `o` is. -/
def keepers (o : ℕ) : ℕ := s.y.load o + s.y.log.count (.delete o) + s.holders o

/-- In how many places the socket `n` is; the listening socket is in its own. -/
def owners (n : ℕ) : ℕ :=
  (if n = listenSocket then 1 else 0) + s.y.objects.countP (·.socket == n) + s.socketHolders n

/-- What holds in every state before the shutdown. -/
structure Inv : Prop where
  portOpen : s.y.portOpen = true
  listening : s.y.associated listenSocket = true
  custody : Custody s.y.objects.length s.keepers
  owners : FullCustody s.y.sockets s.owners
  outstanding : ∀ op ∈ s.y.outstanding, s.y.OpOk op
  port : ∀ p ∈ s.y.port, s.y.PacketOk p
  workers : ∀ pc ∈ s.workers, s.y.PcOk pc
  main : s.y.MainOk s.main
  released : s.y.Released

/-- What remains of it after the shutdown: no object is in two places, and the threads and the kernel
know what is in theirs. -/
structure Core : Prop where
  custody : Custody s.y.objects.length s.keepers
  outstanding : ∀ op ∈ s.y.outstanding, s.y.OpOk op
  port : ∀ p ∈ s.y.port, s.y.PacketOk p
  workers : ∀ pc ∈ s.workers, s.y.PcOk pc
  main : s.y.MainOk s.main

variable {s} {s' : Server} {i : ℕ} {pc : WorkerPc} {ans : Answer}

theorem Inv.core (h : Inv s) : Core s where
  custody := h.custody
  outstanding := h.outstanding
  port := h.port
  workers := h.workers
  main := h.main

theorem initial_inv (workers : ℕ) : Inv (initial workers) where
  portOpen := rfl
  listening := rfl
  custody o := by
    simp [initial, keepers, holders, Shared.load, MainPc.loop, startPostAcceptEx, MainPc.holds,
      PostPc.holds, WorkerPc.holds]
  owners n := by
    by_cases hn : n = 0 <;>
      simp [initial, Server.owners, socketHolders, MainPc.loop, startPostAcceptEx, MainPc.sockets,
        PostPc.sockets, WorkerPc.sockets, listenSocket, hn]
  outstanding := nofun
  port := nofun
  workers pc hpc := by
    rw [(List.mem_replicate.mp hpc).2]
    trivial
  main := trivial
  released := ⟨nofun, nofun⟩

/-! ## Counting -/

theorem holders_set {y' : Shared} {failures : List (ℕ × ℕ)} (hi : s.workers[i]? = some pc)
    (pc' : WorkerPc) (o : ℕ) :
    holders { s with y := y', workers := s.workers.set i pc', failures := failures } o +
      pc.holds.count o = s.holders o + pc'.holds.count o := by
  have := sum_map_set (fun pc : WorkerPc => pc.holds.count o) hi pc'
  simp only [holders]
  omega

theorem socketHolders_set {y' : Shared} {failures : List (ℕ × ℕ)} (hi : s.workers[i]? = some pc)
    (pc' : WorkerPc) (n : ℕ) :
    socketHolders { s with y := y', workers := s.workers.set i pc', failures := failures } n +
      pc.sockets.count n = s.socketHolders n + pc'.sockets.count n := by
  have := sum_map_set (fun pc : WorkerPc => pc.sockets.count n) hi pc'
  simp only [socketHolders]
  omega

theorem count_le_holders (hi : s.workers[i]? = some pc) (o : ℕ) :
    pc.holds.count o + s.main.holds.count o ≤ s.holders o := by
  have := sum_map_eraseIdx_add (fun pc : WorkerPc => pc.holds.count o) hi
  simp only [holders]
  omega

theorem count_le_socketHolders (hi : s.workers[i]? = some pc) (n : ℕ) :
    pc.sockets.count n ≤ s.socketHolders n := by
  have := sum_map_eraseIdx_add (fun pc : WorkerPc => pc.sockets.count n) hi
  simp only [socketHolders]
  omega

theorem holders_post {k : ℕ} {q : PostPc} (hm : s.main = .post k q) (y' : Shared)
    (q' : Option PostPc) (o : ℕ) :
    holders { s with y := y', main := q'.elim (.loop (k + 1)) (.post k) } o + q.holds.count o =
      s.holders o + (q'.elim [] PostPc.holds).count o := by
  rw [holders, holders, hm, MainPc.holds_next]
  exact Nat.add_right_comm _ _ _

theorem socketHolders_post {k : ℕ} {q : PostPc} (hm : s.main = .post k q) (y' : Shared)
    (q' : Option PostPc) (n : ℕ) :
    socketHolders { s with y := y', main := q'.elim (.loop (k + 1)) (.post k) } n +
      q.sockets.count n = s.socketHolders n + (q'.elim [] PostPc.sockets).count n := by
  rw [socketHolders, socketHolders, hm, MainPc.sockets_next]
  exact Nat.add_right_comm _ _ _

/-! ## The steps -/

/-- No object is in the hands of two threads. -/
theorem Core.holds_disjoint (h : Core s) {j : ℕ} {pc' : WorkerPc} (hi : s.workers[i]? = some pc)
    (hj : s.workers[j]? = some pc') (hij : i ≠ j) : ∀ o ∈ pc.holds, o ∉ pc'.holds := by
  intro o ho ho'
  have hsum := add_le_sum_map (fun pc : WorkerPc => pc.holds.count o) hi hj hij
  have := List.count_pos_iff.mpr ho
  have := List.count_pos_iff.mpr ho'
  have := h.custody.le_one o
  rw [keepers, holders] at this
  omega

theorem Core.main_disjoint (h : Core s) (hi : s.workers[i]? = some pc) :
    ∀ o ∈ pc.holds, o ∉ s.main.holds := by
  intro o ho ho'
  have := count_le_holders hi o
  have := List.count_pos_iff.mpr ho
  have := List.count_pos_iff.mpr ho'
  have := h.custody.le_one o
  rw [keepers] at this
  omega

/-- An object that the kernel has is in no hands. -/
theorem Core.not_mem_of_load (h : Core s) {hs : List ℕ} (hhs : ∀ o, hs.count o ≤ s.holders o) {o : ℕ}
    (ho : 0 < s.y.load o) : o ∉ hs := by
  intro hmem
  have := h.custody.le_one o
  have := hhs o
  have := List.count_pos_iff.mpr hmem
  rw [keepers] at *
  omega

theorem Shared.load_pos_of_outstanding {y : Shared} {op : Operation} (h : op ∈ y.outstanding) :
    0 < y.load op.overlapped :=
  Nat.add_pos_left (List.countP_pos_iff.mpr ⟨op, h, by simp⟩) _

theorem Shared.load_pos_of_port {y : Shared} {p : Packet} (h : p ∈ y.port) :
    0 < y.load p.overlapped :=
  Nat.add_pos_right _ (List.countP_pos_iff.mpr ⟨p, h, by simp⟩)

section OfEffect

variable {hs hs' ss ss' : List ℕ} {lost : Option ℕ}

/-- The objects move as their thread moves them. -/
theorem moves_keepers (e : Effect s.y hs ss s'.y hs' ss' lost)
    (hholds : ∀ o, s'.holders o + hs.count o = s.holders o + hs'.count o) :
    Moves s.y.objects.length s'.y.objects.length s.keepers s'.keepers lost :=
  e.kept.of_part fun o => by
    have := hholds o
    simp only [keepers, Shared.kept]
    omega

/-- A step keeps the core if its thread has `hs` in hand, and the threads then are where their objects
say. -/
theorem Core.of_effect (h : Core s) (e : Effect s.y hs ss s'.y hs' ss' lost)
    (hholds : ∀ o, s'.holders o + hs.count o = s.holders o + hs'.count o)
    (hhs : ∀ o, hs.count o ≤ s.holders o) (hworkers : ∀ pc ∈ s'.workers, s'.y.PcOk pc)
    (hmain : s'.y.MainOk s'.main) : Core s' where
  custody := h.custody.step (moves_keepers e hholds)
  outstanding op hop := by
    refine (e.outstanding op hop).elim (fun hold => ?_) id
    obtain ⟨ht, hsock⟩ := h.outstanding op hold
    exact ⟨e.typeIs (h.not_mem_of_load hhs (Shared.load_pos_of_outstanding hold)) ht, hsock⟩
  port p hp := by
    refine (e.port p hp).elim (fun hold => ?_) id
    exact e.typeIs (h.not_mem_of_load hhs (Shared.load_pos_of_port hold)) (h.port p hold)
  workers := hworkers
  main := hmain

/-- **A step keeps the invariant** if it keeps the core, and its thread has `hs` and `ss` in hand. -/
theorem Inv.of_effect (h : Inv s) (hcore : Core s') (e : Effect s.y hs ss s'.y hs' ss' lost)
    (hsockets : ∀ n, s'.socketHolders n + ss.count n = s.socketHolders n + ss'.count n)
    (hhs : ∀ o, hs.count o ≤ s.holders o) (hss : ∀ n, ss.count n ≤ s.socketHolders n) : Inv s' := by
  refine ⟨e.portOpen.trans h.portOpen, e.associated _ h.listening, hcore.custody, ?_,
    hcore.outstanding, hcore.port, hcore.workers, hcore.main,
    e.released h.released (fun n => ?_) fun o ho => ?_⟩
  · refine (full_iff_of_moves h.owners (e.owned.of_part fun n => ?_)).mpr rfl
    have := hsockets n
    simp only [Server.owners, Shared.owned]
    omega
  · have := h.owners.custody.le_one n
    have := hss n
    simp only [Server.owners] at *
    simp only [Shared.owned]
    omega
  · refine h.custody.lt ?_
    have := hhs o
    have := List.count_pos_iff.mpr ho
    rw [keepers]
    omega

end OfEffect

theorem worker_count_le_holders (hi : s.workers[i]? = some pc) (o : ℕ) : pc.holds.count o ≤ s.holders o :=
  Nat.le_of_add_right_le (count_le_holders hi o)

theorem post_count_le_holders {k : ℕ} {q : PostPc} (hm : s.main = .post k q) (o : ℕ) :
    q.holds.count o ≤ s.holders o := by
  rw [holders, hm]
  exact Nat.le_add_left _ _

theorem Core.worker (h : Core s) {y' : Shared} {pc' : WorkerPc} {failures : List (ℕ × ℕ)}
    (hi : s.workers[i]? = some pc) (hstep : WorkerStep s.y pc ans y' pc') :
    Core { s with y := y', workers := s.workers.set i pc', failures := failures } := by
  have hok := h.workers pc (List.mem_of_getElem? hi)
  have e := hstep.effect hok
  refine h.of_effect e (holders_set hi pc') (worker_count_le_holders hi) ?_ ?_
  · intro x hx
    obtain ⟨j, hj⟩ := List.getElem?_of_mem hx
    rcases mem_of_getElem?_set hj with ⟨-, rfl⟩ | ⟨hne, hj⟩
    · exact hstep.pcOk hok h.port
    · exact e.pcOk (h.holds_disjoint hj hi hne) (h.workers x (List.mem_of_getElem? hj))
  · exact e.mainOk (fun o ho ho' => h.main_disjoint hi o ho' ho) h.main

theorem Core.mainPost (h : Core s) {k : ℕ} {q : PostPc} {q' : Option PostPc} {y' : Shared}
    (hm : s.main = .post k q) (hstep : PostStep s.y q ans y' q') :
    Core { s with y := y', main := q'.elim (.loop (k + 1)) (.post k) } := by
  have hok : s.y.MainOk (.post k q) := hm ▸ h.main
  have e := hstep.effect hok
  refine h.of_effect e (holders_post hm y' q') (post_count_le_holders hm) ?_ ?_
  · intro x hx
    obtain ⟨j, hj⟩ := List.getElem?_of_mem hx
    refine e.pcOk (fun o ho ho' => h.main_disjoint hj o ho ?_) (h.workers x hx)
    rwa [hm]
  · cases q' with
    | none =>
      show y'.MainOk (.loop (k + 1))
      unfold MainPc.loop
      split_ifs <;> trivial
    | some q' => exact hstep.postOk hok

theorem Core.complete (h : Core s) {j : ℕ} {r : Completion} {y' : Shared}
    (hstep : s.y.complete j r = some y') : Core { s with y := y' } := by
  have e := Shared.complete_effect hstep h.outstanding
  exact h.of_effect e (fun _ => rfl) (fun _ => Nat.zero_le _)
    (fun pc hpc => e.pcOk (fun _ _ => List.not_mem_nil) (h.workers pc hpc))
    (e.mainOk (fun _ _ => List.not_mem_nil) h.main)

/-- The shutdown touches neither objects nor operations. -/
theorem Core.shutdown (h : Core s) (hobj : s'.y.objects = s.y.objects)
    (hout : s'.y.outstanding = s.y.outstanding) (hport : s'.y.port = s.y.port)
    (hlog : ∀ o, s'.y.log.count (.delete o) = s.y.log.count (.delete o))
    (hworkers : s'.workers = s.workers) (hm : s.main.holds = []) (hm' : s'.main.holds = [])
    (hok : s'.y.MainOk s'.main) : Core s' := by
  have ht : ∀ o t, s.y.TypeIs o t → s'.y.TypeIs o t := fun o t h => by
    rw [Shared.TypeIs, hobj]
    exact h
  have hpcOk : ∀ pc, s.y.PcOk pc → s'.y.PcOk pc := fun pc h => by
    cases pc with
    | failed p | drop p | dispatch p => exact ht _ _ h
    | post p q =>
      refine ⟨h.1, ht _ _ h.2.1, ?_⟩
      cases q with
      | acceptEx o => exact ht _ _ h.2.2
      | wsaSocket | new => trivial
    | setsockopt o | associate o | wsaRecv o | wsaSend o => exact ht _ _ h
    | getStatus | returned => trivial
  refine ⟨?_, fun op hop => ?_, fun p hp => ?_, fun pc hpc => ?_, hok⟩
  · have hkeepers : s'.keepers = s.keepers := by
      funext o
      simp only [keepers, holders, Shared.load, hout, hport, hlog, hworkers, hm, hm']
    rw [hobj, hkeepers]
    exact h.custody
  · obtain ⟨htype, hsock⟩ := h.outstanding op (hout ▸ hop)
    exact ⟨ht _ _ htype, hsock⟩
  · exact ht _ _ (h.port p (hport ▸ hp))
  · exact hpcOk pc (h.workers pc (hworkers ▸ hpc))

/-- **Every step keeps the core**, also in the shutdown and after it. -/
theorem Core.step (h : Core s) {a : Action} (hs : s.step a = some s') : Core s' := by
  cases a with
  | worker i ans =>
    cases step_cases hs with
    | worker hi hw => exact h.worker hi hw
  | main ans =>
    cases step_main_cases hs with
    | post hm hq => exact h.mainPost hm hq
    | closesocket hm =>
      exact h.shutdown rfl rfl rfl (fun o => by simp) rfl (by rw [hm]; rfl) rfl trivial
    | closeHandle hm =>
      exact h.shutdown rfl rfl rfl (fun _ => rfl) rfl (by rw [hm]; rfl) rfl trivial
  | complete j r =>
    cases step_cases hs with
    | complete hc => exact h.complete hc

/-- An object in an outstanding operation is nowhere else. -/
theorem Core.sole (h : Core s) {j : ℕ} {op : Operation} (hop : s.y.outstanding[j]? = some op) :
    (∀ op' ∈ s.y.outstanding.eraseIdx j, op'.overlapped ≠ op.overlapped) ∧
      (∀ p ∈ s.y.port, p.overlapped ≠ op.overlapped) ∧
      ∀ pc ∈ s.workers, op.overlapped ∉ pc.holds := by
  have hle := h.custody.le_one op.overlapped
  have hcount := countP_eraseIdx_add (fun op' : Operation => op'.overlapped == op.overlapped) hop
  rw [beq_self_eq_true, if_pos rfl] at hcount
  rw [keepers, Shared.load] at hle
  refine ⟨fun op' hop' he => ?_, fun p hp he => ?_, fun pc hpc hmem => ?_⟩
  · have := List.countP_pos_iff (p := fun op' : Operation => op'.overlapped == op.overlapped).mpr
      ⟨op', hop', beq_iff_eq.mpr he⟩
    omega
  · have := List.countP_pos_iff (p := fun p : Packet => p.overlapped == op.overlapped).mpr
      ⟨p, hp, beq_iff_eq.mpr he⟩
    omega
  · obtain ⟨k, hk⟩ := List.getElem?_of_mem hpc
    have := worker_count_le_holders hk op.overlapped
    have := List.count_pos_iff.mpr hmem
    omega

/-- **A step of a worker keeps the invariant.** -/
theorem Inv.worker (h : Inv s) {y' : Shared} {pc' : WorkerPc} {failures : List (ℕ × ℕ)}
    (hi : s.workers[i]? = some pc) (hstep : WorkerStep s.y pc ans y' pc') :
    Inv { s with y := y', workers := s.workers.set i pc', failures := failures } :=
  h.of_effect (h.core.worker hi hstep) (hstep.effect (h.workers pc (List.mem_of_getElem? hi)))
    (socketHolders_set hi pc') (worker_count_le_holders hi) (count_le_socketHolders hi)

/-- **A step of `PostAcceptEx` in `test_iocp_demo` keeps the invariant.** -/
theorem Inv.mainPost (h : Inv s) {k : ℕ} {q : PostPc} {q' : Option PostPc} {y' : Shared}
    (hm : s.main = .post k q) (hstep : PostStep s.y q ans y' q') :
    Inv { s with y := y', main := q'.elim (.loop (k + 1)) (.post k) } := by
  have hok : s.y.MainOk (.post k q) := hm ▸ h.main
  refine h.of_effect (h.core.mainPost hm hstep) (hstep.effect hok) (socketHolders_post hm y' q')
    (post_count_le_holders hm) fun n => ?_
  rw [socketHolders, hm]
  exact Nat.le_add_left _ _

/-- **A completion keeps the invariant.** -/
theorem Inv.complete (h : Inv s) {j : ℕ} {r : Completion} {y' : Shared}
    (hstep : s.y.complete j r = some y') : Inv { s with y := y' } :=
  h.of_effect (h.core.complete hstep) (Shared.complete_effect hstep h.outstanding) (fun _ => rfl)
    (fun _ => Nat.zero_le _) fun _ => Nat.zero_le _

variable {a : Action}

/-- **Every step before the shutdown keeps the invariant.** -/
theorem Inv.step (h : Inv s) (hstep : Step s a s') (hs' : s'.serving = true) : Inv s' := by
  cases hstep with
  | worker hi hw => exact h.worker hi hw
  | post hm hq => exact h.mainPost hm hq
  | shutdown hd => exact absurd hs' (by rw [hd]; decide)
  | complete hc => exact h.complete hc

/-- The object that a step leaves behind. -/
def forgets (s : Server) : Action → Option ℕ
  | .worker i ans => s.workers[i]?.bind fun pc => pc.forgets ans
  | .main _ => none
  | .complete j _ => s.y.forgets j

/-- **Only what a step forgets is lost.** -/
theorem Inv.moves (h : Inv s) (hstep : Step s a s') (hs' : s'.serving = true) :
    Moves s.y.objects.length s'.y.objects.length s.keepers s'.keepers (s.forgets a) := by
  cases hstep with
  | @worker i ans pc y' pc' hi hw =>
    have e := hw.effect (h.workers pc (List.mem_of_getElem? hi))
    rw [forgets, hi]
    exact moves_keepers e (holders_set hi pc')
  | @post k q ans y' q' hm hq =>
    have hok : s.y.MainOk (.post k q) := hm ▸ h.main
    exact moves_keepers (hq.effect hok) (holders_post hm y' q')
  | shutdown hd => exact absurd hs' (by rw [hd]; decide)
  | complete hc => exact moves_keepers (Shared.complete_effect hc h.outstanding) fun _ => rfl

/-- **The runs of a serving server.** Let the steps that meet `C` keep `Q`, and those that do not
break `P`. Then `P` holds as long as the server serves exactly if the steps meet `C` as long as it
serves. -/
theorem always_serving_iff {P Q : Server → Prop} {A C : Server → Action → Prop} {workers : ℕ}
    {actions : List Action} (hP : ∀ s, Inv s → Q s → P s)
    (hC : ∀ s a s', Inv s → Q s → Step s a s' → s'.serving = true → A s a → C s a → Q s')
    (hN : ∀ s a s', Inv s → Q s → Step s a s' → s'.serving = true → A s a → P s' → C s a)
    (hmain : ∀ s ans, C s (.main ans)) (hQ : Q (initial workers))
    (hA : machine.AllSteps A (initial workers) actions) :
    machine.Always (fun s => s.serving = true → P s) (initial workers) actions ↔
      machine.AllSteps (fun s a => s.serving = true → C s a) (initial workers) actions := by
  refine Machine.always_iff_allSteps_of (I := fun s => s.serving = true → Inv s ∧ Q s)
    (fun s h hs => hP s (h hs).1 (h hs).2) (fun s a s' h hstep hA hC' => ?_)
    (fun s a s' h hstep hA hP' => ?_) (fun _ => ⟨initial_inv workers, hQ⟩) hA
  · intro hs'
    have hcases := step_cases hstep
    have hs := hcases.serving hs'
    obtain ⟨hinv, hq⟩ := h hs
    exact ⟨hinv.step hcases hs', hC s a s' hinv hq hcases hs' hA (hC' hs)⟩
  · intro hs
    have hcases := step_cases hstep
    obtain ⟨hinv, hq⟩ := h hs
    by_cases hs' : s'.serving = true
    · exact hN s a s' hinv hq hcases hs' hA (hP' hs')
    · -- only `test_iocp_demo` shuts down
      cases hcases with
      | worker | complete => exact absurd hs hs'
      | post | shutdown => exact hmain s _

end Server

end SelfStudy.TestIocp
