import Mbroker.Server.Commands
import Mbroker.Server.Progress
import Mbroker.Sessions.Theorems

/-!
# Runs of the server

For any number of workers, any clients and any order of the steps: what becomes of the requests.
-/

namespace Mbroker.Server

open Mbroker.Lib Mbroker.Protocol Mbroker.Manager Mbroker.Sessions

variable {s : Process} {x : Process × Record} {es : List Event} {w : Nat}

/-! ## Every pointer once -/

/-- Every pointer that `main` enqueues waits in the queue, or is with exactly one worker, or a worker was done with it,
exactly once; and what was written for it is all that the request asks for that the worker copied. -/
theorem pointers_served_once (h : s.Started) (hrun : Steps Step (s, .empty) es x) :
    Dispatch.Tickets x.1.system x.2.log x.2.done ∧ ∀ j ∈ x.2.finished, j.Answered x.2.log := by
  have hx : Serving x := hrun.invariant (fun _ _ _ hx hs => hx.step hs.outcome) h.serving
  exact ⟨hx.tickets, hx.answered⟩

/-- A client's request is read and enqueued. -/
def arrives (r : Dispatch.ClientRequest) : List Event :=
  [.dispatch (.write r), .dispatch .test, .dispatch .read, .dispatch .enqueue]

/-- The worker `w` dequeues a request and copies it. -/
def copies (w : Nat) : List Event :=
  [.dispatch (.dequeue w), .dispatch (.copyCode w), .dispatch (.copyPath w), .dispatch (.copyBox w)]

/-- Two requests are read before the first is copied, and both workers do what the second asks for. -/
def readTogether : List Event :=
  arrives (.request .creation (ascii "pipe") (ascii "box")) ++
    arrives (.request .removal (ascii "other") (ascii "box")) ++ copies 0 ++ copies 1 ++
    [.session (.tfsUnlink 1), .session (.respond 1), .session (.tfsUnlink 0), .dispatch (.finish 1),
      .session (.respond 0), .dispatch (.finish 0)]

theorem pointers_served_once_together : ∃ x, Steps Step (.start 2, .empty) readTogether x ∧ x.2.done = [1, 0] ∧
    Dispatch.Tickets x.1.system x.2.log x.2.done := by
  obtain ⟨x, hrun, hdone⟩ := exists_steps (fun x : Process × Record => x.2.done = [1, 0]) Step.of_withRecord
    (.start 2, .empty) readTogether (by decide +kernel)
  exact ⟨x, hrun, hdone, (pointers_served_once (Process.start_started 2) hrun).1⟩

/-! ## Every request once -/

/-- A box is created, and while its worker goes on another one removes it. -/
def creationAndRemoval : List Event :=
  arrives (.request .creation (inParent (ascii "pipe")) (ascii "box")) ++ copies 0 ++
    [.session (.tfsOpen 0), .session (.insert 0 0 fun _ => 0)] ++
    arrives (.request .removal (inParent (ascii "other")) (ascii "box")) ++ copies 1 ++
    [.session (.tfsUnlink 1), .session (.respond 0), .session (.deleteBox 1), .dispatch (.finish 0),
      .session (.respond 1), .dispatch (.finish 1)]

end Mbroker.Server
