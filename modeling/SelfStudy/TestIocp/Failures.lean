import SelfStudy.TestIocp.Ownership

/-!
# Failed completions

A worker that dequeues a failed completion takes two codes for a disconnection, and then closes the
socket and deletes the object; with every other code it returns. So the workers stay in service and
settle what has failed exactly if no failed completion they get so far with has another code
(`in_service_iff`).
-/

namespace SelfStudy.TestIocp

open Lib

/-- The object `o` has been deleted after its socket was closed. -/
def Shared.Dropped (y : Shared) (o : ℕ) : Prop :=
  ∃ overlp, y.objects[o]? = some overlp ∧
    List.Sublist [.closesocket overlp.socket, .delete o] y.log

/-- A worker that is about to return because of a failed completion. -/
def WorkerPc.givesUp : WorkerPc → Bool
  | .failed p => !disconnected p
  | _ => false

namespace Server

def givesUp (s : Server) : Action → Bool
  | .worker i _ => s.workers[i]?.any WorkerPc.givesUp
  | _ => false

/-- The worker `i`, which has dequeued the failed completion of `o`, is still at it, or it has deleted
`o` after closing its socket. -/
def Settled (s : Server) (i o : ℕ) : Prop :=
  (∃ p, p.overlapped = o ∧ (s.workers[i]? = some (.failed p) ∨ s.workers[i]? = some (.drop p))) ∨
    s.y.Dropped o

/-- No worker has returned, and what has failed is settled. -/
structure InService (s : Server) : Prop where
  running : .returned ∉ s.workers
  settled : ∀ i o, (i, o) ∈ s.failures → s.Settled i o

end Server

/-! ## Steps -/

theorem Effect.dropped {y y' : Shared} {hs hs' ss ss' : List ℕ} {lost : Option ℕ} {o : ℕ}
    (e : Effect y hs ss y' hs' ss' lost) (h : y.Dropped o) : y'.Dropped o := by
  obtain ⟨overlp, hget, hsub⟩ := h
  obtain ⟨overlp', hget', hsock, -⟩ := e.objects o overlp hget
  refine ⟨overlp', hget', ?_⟩
  rw [hsock]
  rcases e.log with hlog | ⟨a, x, -, hlog⟩
  · rwa [hlog]
  · rw [hlog]
    exact hsub.trans (List.sublist_append_left _ _)

section Steps

variable {y y' : Shared} {pc pc' : WorkerPc} {ans : Answer}

/-- While the port is open, a worker returns only if it gives up. -/
theorem WorkerStep.returned_iff (h : WorkerStep y pc ans y' pc') (ho : y.portOpen = true) :
    pc' = .returned ↔ pc.givesUp = true := by
  cases h with
  | abandoned hc => rw [ho] at hc; cases hc
  | disconnected h | gaveUp h => simp [WorkerPc.givesUp, h]
  | _ => exact iff_of_false nofun nofun

/-- A worker that has dequeued a failed completion and does not give up goes on to delete the
object. -/
theorem WorkerStep.settles {p : Packet} (h : WorkerStep y pc ans y' pc')
    (hpc : pc = .failed p ∨ pc = .drop p) (hg : pc.givesUp = false) :
    pc' = .drop p ∨ y'.Dropped p.overlapped := by
  rcases hpc with rfl | rfl
  · cases h with
    | disconnected => exact .inl rfl
    | gaveUp h => simp [WorkerPc.givesUp, h] at hg
  · cases h with
    | dropped h => exact .inr ⟨_, h, List.sublist_append_right _ _⟩

theorem WorkerStep.failure {i k o : ℕ} (h : WorkerStep y pc ans y' pc')
    (hmem : (k, o) ∈ failure i pc pc') : k = i ∧ ∃ p, p.overlapped = o ∧ pc' = .failed p := by
  cases h with
  | dequeuedFailed ho h he =>
    obtain ⟨rfl, rfl⟩ := Prod.mk.inj (List.mem_singleton.mp hmem)
    exact ⟨rfl, _, rfl, rfl⟩
  | _ => cases hmem

end Steps

namespace Server

variable {s s' : Server} {a : Action}

/-- **The workers stay in service**, unless one gives up. -/
theorem InService.step (h : InService s) (hinv : Inv s) (hstep : Step s a s')
    (hs' : s'.serving = true) (hC : s.givesUp a = false) : InService s' := by
  cases hstep with
  | @worker i ans pc y' pc' hi hw =>
    have hg : pc.givesUp = false := by simpa [givesUp, hi] using hC
    have e := hw.effect (hinv.workers pc (List.mem_of_getElem? hi))
    have hlt := (List.getElem?_eq_some_iff.mp hi).1
    refine ⟨fun hmem => ?_, fun k o hmem => ?_⟩
    · rcases List.mem_or_eq_of_mem_set hmem with hmem | heq
      · exact h.running hmem
      · rw [(hw.returned_iff hinv.portOpen).mp heq.symm] at hg
        cases hg
    · rcases List.mem_append.mp hmem with hmem | hmem
      · rcases h.settled k o hmem with ⟨p, rfl, hp⟩ | hd
        · by_cases hk : k = i
          · obtain rfl := hk
            rw [hi] at hp
            rcases hw.settles (hp.imp Option.some.inj Option.some.inj) hg with rfl | hd
            · exact .inl ⟨p, rfl, .inr (List.getElem?_set_self hlt)⟩
            · exact .inr hd
          · refine .inl ⟨p, rfl, ?_⟩
            rwa [List.getElem?_set_ne (Ne.symm hk)]
        · exact .inr (e.dropped hd)
      · obtain ⟨rfl, p, rfl, rfl⟩ := hw.failure hmem
        exact .inl ⟨p, rfl, .inl (List.getElem?_set_self hlt)⟩
  | @post k q ans y' q' hm hq =>
    have hok : s.y.MainOk (.post k q) := hm ▸ hinv.main
    exact ⟨h.running, fun i o hmem => (h.settled i o hmem).imp id (hq.effect hok).dropped⟩
  | shutdown hd => exact absurd hs' (by rw [hd]; decide)
  | complete hc =>
    have e := Shared.complete_effect hc hinv.outstanding
    exact ⟨h.running, fun i o hmem => (h.settled i o hmem).imp id e.dropped⟩

theorem inService_initial (workers : ℕ) : InService (initial workers) := by
  refine ⟨fun hmem => ?_, nofun⟩
  cases (List.mem_replicate.mp hmem).2

/-- **In service, exactly if nobody gives up.** In every run from the start, with any number of
workers and any outcomes, no worker has returned all along the way to the shutdown, and every object
whose operation has failed is deleted after its socket when the worker that dequeued it is done with
it, exactly if no worker gets before the shutdown to the test of `GetLastError` with a code that is
neither `WAIT_TIMEOUT` nor `ERROR_NETNAME_DELETED`. -/
theorem in_service_iff (workers : ℕ) (actions : List Action) :
    machine.Always (fun s => s.serving = true → s.InService) (initial workers) actions ↔
      machine.AllSteps (fun s a => s.serving = true → s.givesUp a = false) (initial workers)
        actions := by
  refine always_serving_iff (Q := InService) (A := fun _ _ => True) (fun s _ h => h)
    (fun s a s' hinv h hstep hs' _ hC => h.step hinv hstep hs' hC)
    (fun s a s' hinv h hstep hs' _ hP => ?_) (fun _ _ => rfl) (inService_initial workers)
    (Machine.allSteps_of_forall (fun _ _ _ => trivial) _)
  cases hstep with
  | @worker i ans pc y' pc' hi hw =>
    have hlt := (List.getElem?_eq_some_iff.mp hi).1
    have hne : pc' ≠ .returned := fun heq => hP.running (heq ▸ List.mem_set hlt pc')
    simpa [givesUp, hi] using mt (hw.returned_iff hinv.portOpen).mpr hne
  | post | shutdown | complete => rfl

/-- The only worker returns when the first client's receive fails with the code 1236, and the object
stays. -/
theorem worker_gives_up : ∃ s, machine.run (initial 1) (posts ++ connect ++
      [.complete 4 (.failed 1236), .worker 0 (.packet 0), .worker 0 .none]) = some s ∧
    s.serving = true ∧ s.failures = [(0, 0)] ∧ s.workers = [.returned] ∧ s.y.log = [] ∧
    ¬ s.InService := by
  refine ⟨_, rfl, rfl, rfl, rfl, rfl, fun h => ?_⟩
  exact h.running (List.mem_singleton_self _)

end Server

end SelfStudy.TestIocp
