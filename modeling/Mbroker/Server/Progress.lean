import Mbroker.Server.Invariants
import Mbroker.Sessions.Progress

/-!
# Steps that the server can take

Nothing outside the cases is held up by them but the way back to the queue, and every request that was copied is taken.
-/

namespace Mbroker.Server

open Mbroker.Lib Mbroker.Protocol Mbroker.Queue Mbroker.Sessions

variable {x x' : Process × Record} {es : List Event} {w : Nat} {d : Dispatch.Decoded} {system : Dispatch.System}

/-! ## Steps outside the cases -/

/-- A worker that copies can go on with it. -/
theorem copying_step {s : Dispatch.System} (hw : (s.worker w).Copying) :
    ∃ e s', e.copier = some w ∧ Dispatch.Step s e s' := by
  cases hphase : s.worker w with
  | dequeued p => exact ⟨.copyCode w, _, rfl, by simp only [Dispatch.Step, Dispatch.step, hphase]; rfl⟩
  | coded p code => exact ⟨.copyPath w, _, rfl, by simp only [Dispatch.Step, Dispatch.step, hphase]; rfl⟩
  | pathed p code path => exact ⟨.copyBox w, _, rfl, by simp only [Dispatch.Step, Dispatch.step, hphase]; rfl⟩
  | idle | processing | exited =>
      rw [hphase] at hw
      exact hw.elim

/-- A step outside the cases can be taken unless it leads back from a case that is not over. -/
theorem Serving.dispatch_step (h : Serving x) {e : Dispatch.Event} (hs : Dispatch.Step x.1.system e system)
    (hleaves : ∀ w, e = .finish w → x.1.broker.phase w = .idle) :
    ∃ x', Step x (.dispatch e) x' ∧ x'.1.system = system := by
  have hl : Leaves x.1.broker e = true := by
    cases e with
    | finish w =>
        simp only [Leaves, hleaves w rfl]
        rfl
    | _ => rfl
  cases hd : decoded system e with
  | none =>
      refine ⟨_, .of_step ⟨system, x.1.broker⟩ ?_, rfl⟩
      simp only [Server.step, hl, ↓reduceIte, show Dispatch.step x.1.system e = some system from hs, Option.bind_some,
        hd]
  | some wd =>
      obtain ⟨w, d⟩ := wd
      obtain ⟨hcopier, hw⟩ := decoded_eq_some.mp hd
      obtain ⟨hcopying, hfits⟩ := hs.outcome.copied hcopier hw
      have hlt := (h.tickets.busy w (Or.inl hcopying)).1
      have hidle : x.1.broker.phase w = .idle := h.idle w fun d' hd' => by
        rw [hd'] at hcopying
        exact hcopying
      have hcond : w < x.1.broker.numThreads ∧ d.Fits := ⟨by rw [h.numThreads]; exact hlt, hfits⟩
      obtain ⟨b, hb⟩ : ∃ b, Sessions.step x.1.broker (.take w d) = some b := by
        simp only [Sessions.step, hidle, if_pos hcond]
        exact ⟨_, rfl⟩
      refine ⟨_, .of_step ⟨system, b⟩ ?_, rfl⟩
      simp only [Server.step, hl, ↓reduceIte, show Dispatch.step x.1.system e = some system from hs, Option.bind_some,
        hd, hb, Option.map_some]

theorem session_step {e : Sessions.Event} {b : Broker} (hs : Sessions.Step x.1.broker e b)
    (hne : ∀ w d, e ≠ .take w d) : ∃ x', Step x (.session e) x' ∧ x'.1 = ⟨x.1.system, b⟩ := by
  refine ⟨_, .of_step ⟨x.1.system, b⟩ ?_, rfl⟩
  cases e with
  | take w d => exact absurd rfl (hne w d)
  | _ => simp only [step, show Sessions.step x.1.broker _ = some b from hs, Option.map_some]

/-! ## Workers that can go on -/

/-- The worker whose step it is. -/
def Event.worker : Event → Option Nat
  | dispatch e => e.worker
  | session e => some e.worker

/-- The worker can take a step, if its client does its part. -/
def CanStep (x : Process × Record) (w : Nat) : Prop := ∃ e x', e.worker = some w ∧ Step x e x'

/-- In the step the worker waits for its client. -/
def Event.waits (s : Process) : Event → Bool
  | .dispatch _ => false
  | .session e => e.waits s.broker

/-- The worker can take a step without its client. -/
def CanStepAlone (x : Process × Record) (w : Nat) : Prop :=
  ∃ e x', e.worker = some w ∧ e.waits x.1 = false ∧ Step x e x'

/-- The worker waits for a request. -/
def AtQueue (s : Process) (w : Nat) : Prop := s.system.worker w = .idle ∧ s.system.queue.pcqCurrentSize = 0

/-- The steps in the cases remove no box of a session, find room for every message, and reach every subscriber that is
written to. -/
def Attended (s : Process) : Event → Prop
  | .session e => Sessions.Attended s.broker e
  | .dispatch _ => True

instance (s : Process) : DecidablePred (Attended s)
  | .session e => inferInstanceAs (Decidable (Sessions.Attended s.broker e))
  | .dispatch _ => isTrue trivial

/-- A worker that is not in its case only waits for a request. -/
theorem Serving.canStep_of_outside (h : Serving x) (hw : w < x.1.system.numThreads)
    (hout : ∀ d, x.1.system.worker w ≠ .processing d) : CanStep x w ↔ ¬ AtQueue x.1 w := by
  have hidle := h.idle w hout
  obtain ⟨ptrs, hptrs, -⟩ := h.tickets.waiting
  constructor
  · rintro ⟨e, x', he, hstep⟩ ⟨hphase, hsize⟩
    have hnot : ∀ e system, Dispatch.Step x.1.system e system → e.worker ≠ some w := by
      intro e system hs he
      cases hs.outcome with
      | main hnone => rw [he] at hnone; cases hnone
      | enqueue => cases he
      | dequeue _ _ hq => exact (pcqDequeue_eq_some.mp hq).1 hsize
      | @copy _ v phase hcopier hcopying =>
          have hv : v = w := by cases e <;> cases hcopier <;> cases he <;> rfl
          rw [hv, hphase] at hcopying
          exact hcopying
      | finish hd =>
          cases he
          rw [hphase] at hd
          cases hd
    cases hstep.outcome with
    | dispatch hs | decode hs | finish hs => exact hnot _ _ hs.1 he
    | session hne hs =>
        obtain ⟨b', hb', -⟩ := hs.outcome
        cases he
        obtain ⟨d, he⟩ := hb'.take_of_idle hidle
        exact hne _ _ he
  · intro hq
    obtain ⟨e, system, he, hs, hne⟩ : ∃ e system, e.worker = some w ∧ Dispatch.Step x.1.system e system ∧
        ∀ v, e ≠ .finish v := by
      cases hphase : x.1.system.worker w with
      | idle =>
          have hsize : x.1.system.queue.pcqCurrentSize ≠ 0 := fun h0 => hq ⟨hphase, h0⟩
          cases hd : pcqDequeue x.1.system.queue with
          | none =>
              have hnil := hptrs.dequeue_eq_none.mp hd
              rw [hnil] at hptrs
              exact absurd hptrs.size hsize
          | some r =>
              obtain ⟨p, queue⟩ := r
              exact ⟨.dequeue w, _, rfl, by simp only [Dispatch.Step, Dispatch.step, hphase, hd, if_pos hw]; rfl, nofun⟩
      | processing d => exact absurd hphase (hout d)
      | exited => exact absurd hphase (h.tickets.working w)
      | dequeued | coded | pathed =>
          obtain ⟨e, system, hcopier, hs⟩ := copying_step (s := x.1.system) (w := w) (by rw [hphase]; trivial)
          refine ⟨e, system, ?_, hs, ?_⟩
          · cases e <;> cases hcopier <;> rfl
          · rintro v rfl
            cases hcopier
    obtain ⟨x', hx', -⟩ := h.dispatch_step hs fun v hv => absurd hv (hne v)
    exact ⟨.dispatch e, x', he, hx'⟩

/-- Outside the cases, a worker in its case can only go back to the queue. -/
theorem finish_of_processing {s : Dispatch.System} {e : Dispatch.Event} (hd : s.worker w = .processing d)
    (hs : Dispatch.Step s e system) (he : e.worker = some w) : e = .finish w := by
  cases hs.outcome with
  | main hnone =>
      rw [he] at hnone
      cases hnone
  | enqueue => cases he
  | dequeue hv =>
      cases he
      rw [hd] at hv
      cases hv
  | @copy _ v phase hcopier hcopying =>
      have hv : v = w := by cases e <;> cases hcopier <;> cases he <;> rfl
      rw [hv, hd] at hcopying
      exact hcopying.elim
  | finish =>
      cases he
      rfl

/-- A worker in its case can go on exactly if it can in the broker. -/
theorem canStep_of_processing (hd : x.1.system.worker w = .processing d)
    (hcase : x.1.broker.phase w ≠ .idle) : CanStep x w ↔ Sessions.CanStep x.1.broker w := by
  constructor
  · rintro ⟨e, x', he, hstep⟩
    cases hstep.outcome with
    | dispatch hs _ hne => exact absurd (finish_of_processing hd hs.1 he) (hne w)
    | decode hs hsome =>
        obtain rfl := finish_of_processing hd hs.1 he
        cases (decoded_eq_some.mp hsome).1
    | finish hs hidle =>
        cases he
        exact absurd hidle hcase
    | session hne hs =>
        obtain ⟨hb, -⟩ := withRecord_eq_some.mp hs
        cases he
        exact ⟨_, _, rfl, hb⟩
  · rintro ⟨e, b', rfl, hs⟩
    have hne : ∀ w d, e ≠ .take w d := by
      rintro w d rfl
      cases Sessions.Step.outcome hs with
      | take hw => exact hcase hw
    obtain ⟨x', hx', -⟩ := session_step hs hne
    exact ⟨.session e, x', rfl, hx'⟩

/-- A worker that is with its client is in its case. -/
theorem Serving.canStepAlone_iff (h : Serving x) :
    CanStepAlone x w ↔ (x.1.broker.phase w).atClient = false ∧ CanStep x w := by
  constructor
  · rintro ⟨e, x', he, hwaits, hs⟩
    refine ⟨?_, e, x', he, hs⟩
    cases hs.outcome with
    | finish hd hidle =>
        cases he
        rw [hidle]
        rfl
    | dispatch hd _ hne =>
        rw [h.idle w fun d hw => hne w (finish_of_processing hw hd.1 he)]
        rfl
    | decode hd hsome =>
        have hout : ∀ d, x.1.system.worker w ≠ .processing d := by
          intro d hw
          obtain rfl := finish_of_processing hw hd.1 he
          cases (decoded_eq_some.mp hsome).1
        rw [h.idle w hout]
        rfl
    | session hne hd =>
        obtain ⟨b', hb', -⟩ := hd.outcome
        cases he
        have hwaits : Sessions.Event.waits x.1.broker _ = false := hwaits
        rw [hb'.waits_eq, Bool.or_eq_false_iff] at hwaits
        exact hwaits.2
  · rintro ⟨hclient, e, x', he, hs⟩
    refine ⟨e, x', he, ?_, hs⟩
    cases hs.outcome with
    | dispatch | decode | finish => rfl
    | session hne hd =>
        obtain ⟨b', hb', -⟩ := hd.outcome
        cases he
        refine hb'.waits_eq.trans ?_
        rw [hclient, Bool.or_false]
        cases hphase : x.1.broker.phase _ with
        | idle =>
            obtain ⟨d, he⟩ := hb'.take_of_idle hphase
            exact absurd he (hne _ d)
        | _ => rfl

theorem Serving.canStep_iff (h : Serving x) (hgoing : Going x.1.broker) (hw : w < x.1.system.numThreads) :
    CanStep x w ↔ ¬ AtQueue x.1 w ∧ ¬ Asleep x.1.broker w ∧ ¬ WaitsForListing x.1.broker w := by
  have hasleep : Asleep x.1.broker w → x.1.broker.phase w ≠ .idle := by
    rintro ⟨s, last, box, hphase, -⟩ hidle
    rw [hphase] at hidle
    cases hidle
  have hwaits : WaitsForListing x.1.broker w → x.1.broker.phase w ≠ .idle := by
    rintro ⟨hlocks, -⟩ hidle
    rw [hidle] at hlocks
    cases hlocks
  by_cases hout : ∃ d, x.1.system.worker w = .processing d
  · obtain ⟨d, hd⟩ := hout
    have hq : ¬ AtQueue x.1 w := by
      rintro ⟨hphase, -⟩
      rw [hphase] at hd
      cases hd
    by_cases hcase : x.1.broker.phase w = .idle
    · have hs : Dispatch.Step x.1.system (.finish w) (x.1.system.setWorker w .idle) := by
        simp only [Dispatch.Step, Dispatch.step, hd]
      obtain ⟨x', hx', -⟩ := h.dispatch_step hs fun v hv => by
        cases hv
        exact hcase
      have hcan : CanStep x w := ⟨.dispatch (.finish w), x', rfl, hx'⟩
      exact iff_of_true hcan ⟨hq, fun ha => hasleep ha hcase, fun hwait => hwaits hwait hcase⟩
    · rw [canStep_of_processing hd hcase, hgoing.canStep_iff (by rw [h.numThreads]; exact hw)]
      exact ⟨fun hcan => ⟨hq, hcan⟩, fun hcan => hcan.2⟩
  · have hout : ∀ d, x.1.system.worker w ≠ .processing d := fun d hd => hout ⟨d, hd⟩
    have hidle := h.idle w hout
    rw [h.canStep_of_outside hw hout]
    exact ⟨fun hq => ⟨hq, fun ha => hasleep ha hidle, fun hwait => hwaits hwait hidle⟩, fun hcan => hcan.1⟩

end Mbroker.Server
