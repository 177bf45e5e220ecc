import SelfStudy.TestIocp.Ownership

/-!
# No connection is left open

The server loses an object with its socket exactly in the steps that `forgets` lists: a worker that
returns from a failed completion, a completed send, a post that does not start, and the completion of
an operation whose socket is not associated with the port. All along a run every object is in its one
situation exactly if there is no such step in it (`connections_kept_iff`).
-/

namespace SelfStudy.TestIocp

open Lib

namespace Server

/-- The situations of an object `o` with the socket `n`: an operation with it is outstanding or its
completion is queued, one thread has it in its hands, or it is deleted and its socket closed. -/
inductive Situation (s : Server) (o n : ℕ) : Prop
  | posted (load : s.y.load o = 1) (holders : s.holders o = 0) (delete : .delete o ∉ s.y.log)
    (closesocket : .closesocket n ∉ s.y.log)
  | held (load : s.y.load o = 0) (holders : s.holders o = 1) (delete : .delete o ∉ s.y.log)
    (closesocket : .closesocket n ∉ s.y.log)
  | released (load : s.y.load o = 0) (holders : s.holders o = 0)
    (delete : s.y.log.count (.delete o) = 1) (closesocket : s.y.log.count (.closesocket n) = 1)

/-- Every object is in one of the situations. -/
def Kept (s : Server) : Prop :=
  ∀ (o : ℕ) overlp, s.y.objects[o]? = some overlp → s.Situation o overlp.socket

variable {s s' : Server} {a : Action} {o : ℕ} {overlp : OverlappedPerIo}

theorem Inv.situation (h : Inv s) (hget : s.y.objects[o]? = some overlp) (hk : s.keepers o = 1) :
    s.Situation o overlp.socket := by
  have hpair := (h.released.inPairs o overlp hget).1
  rw [keepers] at hk
  rcases Nat.eq_zero_or_pos (s.y.log.count (.delete o)) with hd | hd
  · have hdel := List.count_eq_zero.mp hd
    have hclose := List.count_eq_zero.mp (hpair.trans hd)
    rcases Nat.eq_zero_or_pos (s.holders o) with hh | hh
    · exact .posted (by omega) hh hdel hclose
    · exact .held (by omega) (by omega) hdel hclose
  · exact .released (by omega) (by omega) (by omega) (by omega)

theorem Situation.keepers {n : ℕ} (h : s.Situation o n) : s.keepers o = 1 := by
  unfold Server.keepers
  cases h with
  | posted hl hh hd hc | held hl hh hd hc => rw [hl, hh, List.count_eq_zero.mpr hd]
  | released hl hh hd hc => rw [hl, hh, hd]

theorem Inv.kept_iff (h : Inv s) : s.Kept ↔ FullCustody s.y.objects.length s.keepers := by
  constructor
  · intro hk o
    split_ifs with ho
    · exact (hk o _ (List.getElem?_eq_getElem ho)).keepers
    · exact Nat.eq_zero_of_not_pos fun hpos => ho (h.custody.lt hpos)
  · intro hk o overlp hget
    exact h.situation hget (hk.eq_one (List.getElem?_eq_some_iff.mp hget).1)

theorem kept_initial (workers : ℕ) : Kept (initial workers) := nofun

/-- **Every object is in one situation, exactly if none is forgotten.** In every run from the start,
with any number of workers and any answers of the system, each object that `PostAcceptEx` has made is
all along the way to the shutdown in exactly one place, with its socket closed when it is deleted,
exactly if no step before the shutdown forgets one. -/
theorem connections_kept_iff (workers : ℕ) (actions : List Action) :
    machine.Always (fun s => s.serving = true → s.Kept) (initial workers) actions ↔
      machine.AllSteps (fun s a => s.serving = true → s.forgets a = none) (initial workers)
        actions := by
  refine always_serving_iff (Q := Kept) (A := fun _ _ => True) (fun s _ h => h)
    (fun s a s' hinv hk hstep hs' _ hC => ?_) (fun s a s' hinv hk hstep hs' _ hP => ?_)
    (fun _ _ => rfl) (kept_initial workers) (Machine.allSteps_of_forall (fun _ _ _ => trivial) _)
  · have hmoves := hinv.moves hstep hs'
    exact (hinv.step hstep hs').kept_iff.mpr
      ((full_iff_of_moves (hinv.kept_iff.mp hk) hmoves).mpr hC)
  · have hmoves := hinv.moves hstep hs'
    exact (full_iff_of_moves (hinv.kept_iff.mp hk) hmoves).mp
      ((hinv.step hstep hs').kept_iff.mp hP)

/-- The worker answers one byte. -/
def answer : List Action :=
  [.complete 4 (.received [65]), .worker 0 (.packet 0), .worker 0 .none,
    .worker 0 (.overlapped .success), .complete 4 (.sent 22), .worker 0 (.packet 0), .worker 0 .none]

/-- After one echo nobody has the object of the connection, and its socket is open. -/
theorem connection_forgotten : ∃ s, machine.run (initial 1) (posts ++ connect ++ answer) = some s ∧
    s.serving = true ∧ s.y.log = [] ∧ s.y.load 0 = 0 ∧ s.holders 0 = 0 ∧ ¬ s.Kept := by
  refine ⟨_, rfl, rfl, rfl, rfl, rfl, fun hk => ?_⟩
  have hkeepers := (hk 0 _ rfl).keepers
  exact Nat.zero_ne_one hkeepers

end Server

end SelfStudy.TestIocp
