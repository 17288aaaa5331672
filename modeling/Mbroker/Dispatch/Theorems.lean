import Mbroker.Dispatch.Workers

/-!
# Runs of the dispatcher

What holds of the requests in every run: where the buffers that are enqueued start, and what the workers decode.
-/

namespace Mbroker.Dispatch

open Mbroker.Lib Mbroker.Protocol

variable {s s' : System} {l : Log} {es : List Event}

/-! ## Boundaries -/

/-- Every buffer that is enqueued starts with all of the next request, if no read is interrupted and none finds
a list request with something behind it. -/
theorem register_boundaries (h : s.Started)
    (hrun : Steps (Guarded (fun x : System × Log => ReadsOne x.1) LoggedStep) (s, .empty) es (s', l)) :
    Boundaries s' l :=
  (hrun.invariant (I := fun x => RegisterInv x.1 x.2) (fun _ _ _ hI hs => hI.step hs.1 hs.2)
    h.registerInv).toBoundaries

/-- A request and then a list request, each read on its own. -/
theorem register_boundaries_apart : ∃ x : System × Log,
    Steps (Guarded (fun x : System × Log => ReadsOne x.1) LoggedStep) (System.start 4 2, .empty)
      [.write (.request .publisher ⟨[112], by decide⟩ ⟨[98], by decide⟩), .test, .read, .enqueue,
        .write (.listing ⟨[112], by decide⟩), .test, .read, .enqueue] x ∧
      x.2.enqueued.length = 2 ∧ Boundaries x.1 x.2 := by
  obtain ⟨x, hrun, hlen⟩ := exists_guarded (fun x : System × Log => ReadsOne x.1)
    (fun x => x.2.enqueued.length = 2) LoggedStep.of_loggedStep (System.start 4 2, .empty)
    [.write (.request .publisher ⟨[112], by decide⟩ ⟨[98], by decide⟩), .test, .read, .enqueue,
      .write (.listing ⟨[112], by decide⟩), .test, .read, .enqueue] (by decide +kernel)
  exact ⟨x, hrun, hlen, register_boundaries (System.start_started 4 2) hrun⟩

/-- A list request and a publisher's request wait together: the first read takes the start of the second
request with the first, and the second buffer starts within it. -/
theorem register_boundaries_lost : ∃ x : System × Log,
    Steps LoggedStep (System.start 4 2, .empty)
      [.write (.listing ⟨[112], by decide⟩), .write (.request .publisher ⟨[113], by decide⟩ ⟨[98], by decide⟩),
        .test, .read, .enqueue, .test, .read, .enqueue] x ∧ ¬ Boundaries x.1 x.2 := by
  obtain ⟨x, hrun, b, hb, r, hr, hpre⟩ := exists_steps
    (fun x : System × Log => ∃ b ∈ x.2.enqueued[1]?, ∃ r ∈ x.2.written[1]?, ¬ r.bytes <+: b)
    LoggedStep.of_loggedStep (System.start 4 2, .empty)
    [.write (.listing ⟨[112], by decide⟩), .write (.request .publisher ⟨[113], by decide⟩ ⟨[98], by decide⟩),
      .test, .read, .enqueue, .test, .read, .enqueue] (by decide +kernel)
  refine ⟨x, hrun, fun h => ?_⟩
  obtain ⟨r', hr', hpre'⟩ := h.enqueued 1 b hb
  rw [hr] at hr'
  cases hr'
  exact hpre hpre'

/-! ## Contents -/

/-- The workers decode the requests that were read and enqueued, each once and in order, if `main` reads only
when the queue is empty and no worker is still copying. -/
theorem workers_decode_requests (h : s.Started)
    (hrun : Steps (Guarded (fun x : System × Log => ReadsWhenDone x.1) LoggedStep) (s, .empty) es (s', l)) :
    Boundaries s' l ∧ InOrder s' l ∧
      l.processed <+: (l.written.take l.enqueued.length).map ClientRequest.contents := by
  have hinv := hrun.invariant (I := fun x => WorkersInv x.1 x.2) (fun _ _ _ hI hs => hI.step hs.1 hs.2)
    h.workersInv
  exact ⟨hinv.toBoundaries, hinv.inOrder, hinv.inOrder.processed_prefix⟩

/-- Two requests, the second read when the first was copied. -/
theorem workers_decode_requests_slow : ∃ x : System × Log,
    Steps (Guarded (fun x : System × Log => ReadsWhenDone x.1) LoggedStep) (System.start 2 1, .empty)
      [.write (.request .creation ⟨[112], by decide⟩ ⟨[97], by decide⟩),
        .write (.request .creation ⟨[113], by decide⟩ ⟨[98], by decide⟩), .test, .read, .enqueue,
        .dequeue 0, .copyCode 0, .copyPath 0, .copyBox 0, .test, .read, .enqueue] x ∧
      x.2.processed = [.request ⟨3, ⟨[112], by decide⟩, ⟨[97], by decide⟩⟩] ∧ InOrder x.1 x.2 := by
  obtain ⟨x, hrun, hdone⟩ := exists_guarded (fun x : System × Log => ReadsWhenDone x.1)
    (fun x => x.2.processed = [.request ⟨3, ⟨[112], by decide⟩, ⟨[97], by decide⟩⟩])
    LoggedStep.of_loggedStep (System.start 2 1, .empty)
    [.write (.request .creation ⟨[112], by decide⟩ ⟨[97], by decide⟩),
      .write (.request .creation ⟨[113], by decide⟩ ⟨[98], by decide⟩), .test, .read, .enqueue,
      .dequeue 0, .copyCode 0, .copyPath 0, .copyBox 0, .test, .read, .enqueue] (by decide +kernel)
  exact ⟨x, hrun, hdone, (workers_decode_requests (System.start_started 2 1) hrun).2.1⟩

/-- Two requests read one after the other: the worker that dequeues first finds the second. -/
theorem workers_decode_requests_lost : ∃ x : System × Log,
    Steps LoggedStep (System.start 2 1, .empty)
      [.write (.request .creation ⟨[112], by decide⟩ ⟨[97], by decide⟩),
        .write (.request .creation ⟨[113], by decide⟩ ⟨[98], by decide⟩), .test, .read, .enqueue, .test, .read,
        .enqueue, .dequeue 0, .copyCode 0, .copyPath 0, .copyBox 0] x ∧
      ¬ x.2.processed <+: (x.2.written.take x.2.enqueued.length).map ClientRequest.contents :=
  exists_steps _ LoggedStep.of_loggedStep _ _ (by decide +kernel)

end Mbroker.Dispatch
