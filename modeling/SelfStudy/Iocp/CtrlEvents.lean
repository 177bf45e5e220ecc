import SelfStudy.Iocp.Restart

/-!
# Shutdown requests

`CtrlHandler` asks for the shutdown through `g_hCleanupEvent`, which `main` unsets at the top of each
iteration, and for a restart through `g_bRestart`. A terminating event is heeded if it sets
`g_hCleanupEvent` while `g_bRestart` is FALSE and `main` is past the reset of its iteration: the
event then stays set until `main` leaves the loop. One that comes while the server cleans up for a
restart is lost with the reset (`ctrl_c_lost`).
-/

namespace SelfStudy.Iocp

open Lib

namespace RestartLoop

variable {s s' : RestartLoop}

theorem LoopStep.terminating {pc : LoopPc} {ans : LoopAnswer} (h : LoopStep s pc ans s') :
    s'.terminating = s.terminating := by
  cases h <;> rfl

theorem LoopWorkerStep.terminating {t : ℕ} {pc : LoopWorker} {m : WorkerMove}
    (h : LoopWorkerStep s t pc m s') : s'.terminating = s.terminating := by
  cases h <;> rfl

end RestartLoop

end SelfStudy.Iocp
