import Mbroker.Server.Model

/-!
# The invariant of the server

The worker that holds a pointer is the one that works on what it copied, and what a worker was done with stays
recorded.
-/

namespace Mbroker.Server

open Mbroker.Lib Mbroker.Protocol Mbroker.Sessions

variable {x x' : Process × Record} {e : Event} {es : List Event} {s : Process} {v w : Nat} {d : Dispatch.Decoded}

/-! ## Two runs in one -/

variable {G : Process × Record → Event → Prop}

/-- What `main`, the queue and the copying workers do in a run is a run of theirs. -/
theorem dispatch_run {g : Dispatch.System × Dispatch.Log → Dispatch.Event → Prop}
    (hG : ∀ x e, G x (.dispatch e) → g (x.1.system, x.2.log) e) (h : Steps (Guarded G Step) x es x') :
    ∃ ds, Steps (Guarded g Dispatch.LoggedStep) (x.1.system, x.2.log) ds (x'.1.system, x'.2.log) := by
  refine h.project (f := fun x => (x.1.system, x.2.log)) fun x e x' ⟨hg, hstep⟩ => ?_
  cases hstep.outcome with
  | dispatch hs | decode hs | finish hs => exact ⟨_, .one ⟨hG x _ hg, hs⟩⟩
  | session => exact ⟨[], .nil⟩

/-- What happens in the cases is a run of the broker. -/
theorem session_run {g : Broker → Sessions.Event → Prop} (hG : ∀ x e, G x (.session e) → g x.1.broker e)
    (htake : ∀ b w d, g b (.take w d)) (h : Steps (Guarded G Step) x es x') :
    ∃ hs, Steps (Guarded g Sessions.Step) x.1.broker hs x'.1.broker := by
  refine h.project (f := fun x => x.1.broker) fun x e x' ⟨hg, hstep⟩ => ?_
  cases hstep.outcome with
  | dispatch | finish => exact ⟨[], .nil⟩
  | decode _ _ hs => exact ⟨_, .one ⟨htake _ _ _, (withRecord_eq_some.mp hs).1⟩⟩
  | session _ hs => exact ⟨_, .one ⟨hG x _ hg, (withRecord_eq_some.mp hs).1⟩⟩

/-! ## The invariant -/

/-- What is recorded of a job answers the request that its worker copied. -/
def Job.Answered (l : Dispatch.Log) (j : Job) : Prop :=
  ∃ d, l.decodings[j.ticket]? = some (some d) ∧ Complete j.worker j.list j.trace j.output d

structure Serving (x : Process × Record) : Prop where
  tickets : Dispatch.Tickets x.1.system x.2.log x.2.done
  answering : Answering (x.1.broker, x.2.handled)
  numThreads : x.1.broker.numThreads = x.1.system.numThreads
  idle : ∀ w, (∀ d, x.1.system.worker w ≠ .processing d) → x.1.broker.phase w = .idle
  asked : ∀ w d, x.1.system.worker w = .processing d → x.2.handled.asked w = some d
  answered : ∀ j ∈ x.2.finished, j.Answered x.2.log

theorem Process.Started.serving (h : s.Started) : Serving (s, .empty) where
  tickets := h.system.tickets
  answering := h.broker.answering
  numThreads := h.numThreads
  idle := fun w _ => h.broker.phase w
  asked := fun w d hw => by
    rw [h.system.worker] at hw
    cases hw
  answered := nofun

/-- A job that was answered stays so. -/
theorem Serving.answered_step {system : Dispatch.System} {log : Dispatch.Log} {e : Dispatch.Event} (h : Serving x)
    (hs : Dispatch.LoggedStep (x.1.system, x.2.log) e (system, log)) : ∀ j ∈ x.2.finished, j.Answered log := by
  intro j hj
  obtain ⟨d, hd, hcomplete⟩ := h.answered j hj
  exact ⟨d, h.tickets.decodings_of_done hs (List.mem_map_of_mem hj) hd, hcomplete⟩

/-- Outside the cases, the workers that process a request stay the same. -/
theorem processing_iff {system : Dispatch.System} {l log : Dispatch.Log} {s : Dispatch.System} {e : Dispatch.Event}
    (hs : Dispatch.LoggedStep (s, l) e (system, log)) (hnone : decoded system e = none) (hne : ∀ w, e ≠ .finish w) :
    ∀ w d, system.worker w = .processing d ↔ s.worker w = .processing d := by
  intro w d
  have hset : ∀ {v : Nat} {phase : Dispatch.WorkerPhase}, (∀ d, s.worker v ≠ .processing d) →
      (∀ d, phase ≠ .processing d) →
      ((s.setWorker v phase).worker w = .processing d ↔ s.worker w = .processing d) := by
    intro v phase hv hphase
    by_cases hwv : w = v
    · subst hwv
      rw [Dispatch.System.setWorker_self]
      exact ⟨fun hw => absurd hw (hphase d), fun hw => absurd hw (hv d)⟩
    · rw [Dispatch.System.setWorker_ne _ _ hwv]
  obtain ⟨hs, -⟩ := hs
  cases hs.outcome with
  | main _ _ _ hw => rw [hw]
  | enqueue => exact Iff.rfl
  | @dequeue v p queue hv =>
      refine hset (fun d hd => ?_) fun d hd => ?_
      · rw [hv] at hd
        cases hd
      · split at hd <;> cases hd
  | @copy _ v phase hcopier hcopying =>
      refine hset (fun d hd => ?_) fun d hd => ?_
      · rw [hd] at hcopying
        exact hcopying
      · have hsome : decoded (s.setWorker v phase) e = some (v, d) :=
          decoded_eq_some.mpr ⟨hcopier, (s.setWorker_self v phase).trans hd⟩
        exact absurd (hsome.symm.trans hnone) (Option.some_ne_none _)
  | finish => exact absurd rfl (hne _)

theorem Outcome.numThreads (ho : Outcome x e x') : x'.1.system.numThreads = x.1.system.numThreads := by
  cases ho with
  | dispatch hs | decode hs | finish hs => exact hs.1.outcome.numThreads
  | session => rfl

/-- A step outside the cases that is no way back keeps the numbers of the pointers that workers are done with. -/
theorem Serving.tickets_step {system : Dispatch.System} {log : Dispatch.Log} {e : Dispatch.Event} (h : Serving x)
    (hs : Dispatch.LoggedStep (x.1.system, x.2.log) e (system, log)) (hne : ∀ w, e ≠ .finish w) :
    Dispatch.Tickets system log x.2.done := by
  have hdone : Dispatch.doneAfter x.2.log e x.2.done = x.2.done := by
    cases e with
    | finish w => exact absurd rfl (hne w)
    | _ => rfl
  have htickets := h.tickets.step hs
  rwa [hdone] at htickets

theorem Serving.dispatch {system : Dispatch.System} {log : Dispatch.Log} {e : Dispatch.Event} (h : Serving x)
    (hs : Dispatch.LoggedStep (x.1.system, x.2.log) e (system, log)) (hnone : decoded system e = none)
    (hne : ∀ w, e ≠ .finish w) : Serving (⟨system, x.1.broker⟩, { x.2 with log := log }) := by
  have hiff := processing_iff hs hnone hne
  exact
    { tickets := h.tickets_step hs hne
      answering := h.answering
      numThreads := h.numThreads.trans hs.1.outcome.numThreads.symm
      idle := fun w hw => h.idle w fun d hd => hw d ((hiff w d).mpr hd)
      asked := fun w d hw => h.asked w d ((hiff w d).mp hw)
      answered := h.answered_step hs }

/-- The worker that has copied its request takes it. -/
theorem Serving.decode {system : Dispatch.System} {log : Dispatch.Log} {e : Dispatch.Event} {b : Broker}
    {handled : Handled} (h : Serving x) (hs : Dispatch.LoggedStep (x.1.system, x.2.log) e (system, log))
    (hsome : decoded system e = some (w, d)) (hb : HandleStep (x.1.broker, x.2.handled) (.take w d) (b, handled)) :
    Serving (⟨system, b⟩, { x.2 with log := log, handled := handled }) := by
  obtain ⟨hcopier, hw⟩ := decoded_eq_some.mp hsome
  have hne : ∀ w, e ≠ .finish w := by
    rintro w rfl
    cases hcopier
  have hanswering := h.answering.step hb
  obtain ⟨b', hb', heq⟩ := hb.outcome
  cases heq
  have hother : ∀ v, v ≠ w → system.worker v = x.1.system.worker v := hs.1.outcome.others hcopier
  exact
    { tickets := h.tickets_step hs hne
      answering := hanswering
      numThreads := by
        rw [hb'.numThreads, hs.1.outcome.numThreads]
        exact h.numThreads
      idle := fun v hv => by
        have hvw : v ≠ w := by
          rintro rfl
          exact hv d hw
        rw [(hb'.others hvw).1]
        exact h.idle v fun d' hd' => hv d' ((hother v hvw).trans hd')
      asked := fun v d' hv => by
        by_cases hvw : v = w
        · subst hvw
          rw [hw] at hv
          cases hv
          exact Function.update_self _ _ _
        · rw [hother v hvw] at hv
          exact (handle_others (e := .take w d) x.2.handled x.1.broker b hvw).1.trans (h.asked v d' hv)
      answered := h.answered_step hs }

/-- What was written in the case is complete when its worker is done with it. -/
theorem Serving.finish {system : Dispatch.System} {log : Dispatch.Log} (h : Serving x)
    (hs : Dispatch.LoggedStep (x.1.system, x.2.log) (.finish w) (system, log)) (hidle : x.1.broker.phase w = .idle) :
    Serving (⟨system, x.1.broker⟩, { x.2 with
      log := log
      finished := x.2.finished ++
        [⟨x.2.log.ticket w, w, x.2.handled.list w, x.2.handled.trace w, x.1.broker.output w⟩] }) := by
  have htickets := h.tickets.step hs
  obtain ⟨d, hw, hworker⟩ : ∃ d, x.1.system.worker w = .processing d ∧
      ∀ v, system.worker v = if v = w then .idle else x.1.system.worker v := by
    cases hs.1.outcome with
    | main hnone => cases hnone
    | copy hcopier => cases hcopier
    | finish hw => exact ⟨_, hw, fun v => Function.update_apply _ _ _ _⟩
  have hget := h.tickets.decoded w d hw
  have hcomplete := h.answering.conform w d (h.asked w d hw)
  simp only [hidle] at hcomplete
  refine
    { tickets := ?_
      answering := h.answering
      numThreads := h.numThreads.trans hs.1.outcome.numThreads.symm
      idle := fun v hv => ?_
      asked := fun v d' hv => ?_
      answered := fun j hj => ?_ }
  · simp only [Record.done, List.map_append, List.map_cons, List.map_nil]
    exact htickets
  · by_cases hvw : v = w
    · rw [hvw]
      exact hidle
    · refine h.idle v fun d' hd' => hv d' ?_
      rw [hworker, if_neg hvw]
      exact hd'
  · rw [hworker] at hv
    split at hv
    · cases hv
    · exact h.asked v d' hv
  · rcases List.mem_append.mp hj with hj | hj
    · exact h.answered_step hs j hj
    · rw [List.mem_singleton.mp hj]
      have hlog : log = x.2.log := hs.2
      rw [hlog]
      exact ⟨d, hget, hcomplete⟩

theorem Serving.session {e : Sessions.Event} {b : Broker} {handled : Handled} (h : Serving x)
    (hne : ∀ w d, e ≠ .take w d) (hs : HandleStep (x.1.broker, x.2.handled) e (b, handled)) :
    Serving (⟨x.1.system, b⟩, { x.2 with handled := handled }) := by
  have hanswering := h.answering.step hs
  obtain ⟨b', hb', heq⟩ := hs.outcome
  cases heq
  have hbusy : ∀ v, (∀ d, x.1.system.worker v ≠ .processing d) → v ≠ e.worker := by
    rintro v hv rfl
    obtain ⟨d, he⟩ := hb'.take_of_idle (h.idle _ hv)
    exact hne _ _ he
  exact
    { tickets := h.tickets
      answering := hanswering
      numThreads := hb'.numThreads.trans h.numThreads
      idle := fun v hv => by
        rw [(hb'.others (hbusy v hv)).1]
        exact h.idle v hv
      asked := fun v d hv => by
        by_cases hvw : v = e.worker
        · subst hvw
          exact (handle_self x.2.handled x.1.broker b hne).1.trans (h.asked _ d hv)
        · exact (handle_others x.2.handled x.1.broker b hvw).1.trans (h.asked v d hv)
      answered := h.answered }

theorem Serving.step (h : Serving x) (ho : Outcome x e x') : Serving x' := by
  cases ho with
  | dispatch hs hnone hne => exact h.dispatch hs hnone hne
  | decode hs hsome hb => exact h.decode hs hsome hb
  | finish hs hidle => exact h.finish hs hidle
  | session hne hs => exact h.session hne hs

/-! ## Requests read one by one -/

/-- The condition on the reads of `main`: one request is read, and nobody needs the one before any more. -/
def ReadsWhenDone (s : Process) : Event → Prop
  | .dispatch e => Dispatch.ReadsWhenDone s.system e
  | .session _ => True

instance (s : Process) : DecidablePred (ReadsWhenDone s)
  | .dispatch e => inferInstanceAs (Decidable (Dispatch.ReadsWhenDone s.system e))
  | .session _ => isTrue trivial

theorem Process.Started.workersInv (h : s.Started)
    (hrun : Steps (Guarded (fun x : Process × Record => ReadsWhenDone x.1) Step) (s, .empty) es x) :
    Dispatch.WorkersInv x.1.system x.2.log := by
  obtain ⟨ds, hds⟩ := dispatch_run (g := fun y => Dispatch.ReadsWhenDone y.1) (fun _ _ hg => hg) hrun
  exact hds.invariant (I := fun y => Dispatch.WorkersInv y.1 y.2) (fun _ _ _ hy hs => hy.step hs.1 hs.2)
    h.system.workersInv

/-- Then a job answers the request of its number. -/
theorem Serving.complete (h : Serving x) (hworkers : Dispatch.WorkersInv x.1.system x.2.log) {j : Job}
    (hj : j ∈ x.2.finished) : ∃ r : Dispatch.ClientRequest, x.2.log.written[j.ticket]? = some r ∧
      Complete j.worker j.list j.trace j.output r.contents := by
  obtain ⟨d, hd, hcomplete⟩ := h.answered j hj
  obtain ⟨r, hr, rfl⟩ := hworkers.decoded _ d hd
  exact ⟨r, hr, hcomplete⟩

end Mbroker.Server
