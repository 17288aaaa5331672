import Mbroker.Clients.Model

/-!
# The two ends of a pipe

What a step of a worker does to the process at the other end of its pipe, and what a step of that process itself does.
-/

namespace Mbroker.Clients

open Mbroker.Lib Mbroker.Fs Mbroker.Protocol Mbroker.Sessions

/-! ## Publishers -/

section Publishers

open Publisher (InputInv)

variable {b : Broker} {e : Sessions.Event} {p p' : Publisher.Process × Publisher.Log} {input : List UInt8}

/-- A worker leaves the publisher alone, or takes a step of its session. -/
theorem receive_eq_some (h : receive b e p = some p') : readEvent b e p.1.session = none ∧ p' = p ∨
    ∃ r, readEvent b e p.1.session = some r ∧ Publisher.ProcessStep p (.worker r) p' ∧ Received e p'.1.session := by
  unfold receive at h
  split at h
  · rename_i hnone
    cases h
    exact Or.inl ⟨hnone, rfl⟩
  · rename_i r hr
    rw [Option.filter_eq_some_iff] at h
    exact Or.inr ⟨r, hr, h.1, by simpa using h.2⟩

/-- The worker's first read finds nothing but the probe. -/
def ProbesAlone (b : Broker) (e : Sessions.Event) (p : Publisher.Process × Publisher.Log) : Prop :=
  ∀ r ∈ readEvent b e p.1.session, Publisher.ProbesAlone p (.worker r)

instance (b : Broker) (e : Sessions.Event) (p : Publisher.Process × Publisher.Log) : Decidable (ProbesAlone b e p) := by
  unfold ProbesAlone
  infer_instance

theorem receive_inputInv (h : InputInv input p) (hg : ProbesAlone b e p) (hr : receive b e p = some p') :
    InputInv input p' := by
  obtain ⟨-, rfl⟩ | ⟨r, hr, hs, -⟩ := receive_eq_some hr
  · exact h
  · exact h.step (hg r hr) hs

/-- Only a `tfs_write` of the worker takes a text. -/
theorem passed_of_worker {r : Publisher.Event} (hs : Publisher.ProcessStep p (.worker r) p') :
    (∃ n message, r = .write n ∧ p.1.session.worker = .writing message ∧
      p'.2.passed = p.2.passed ++ [message] ∧ p'.2.full = (p.2.full || decide (n ≤ 0))) ∨
    (∀ n, r ≠ .write n) ∧ p'.2.passed = p.2.passed ∧ p'.2.full = p.2.full := by
  simp only [Publisher.ProcessStep, Publisher.processStep] at hs
  split at hs
  · rename_i hr
    obtain ⟨s', l', ⟨hstep, hlog⟩, rfl⟩ := Publisher.Process.next_eq_some hs
    simp only at hlog
    subst hlog
    cases r with
    | write n =>
        simp only [Publisher.Step, Publisher.step] at hstep
        split at hstep
        · rename_i message hw
          refine Or.inl ⟨n, message, rfl, hw, ?_⟩
          simp only [Publisher.Log.next, hw, and_self]
        · cases hstep
    | read | eof => exact Or.inr ⟨fun n hn => (by cases hn), rfl, rfl⟩
    | test | send | close => cases hr
  · cases hs

/-- The publisher itself leaves the worker where it is. -/
theorem passed_of_publisher {r : Publisher.ProcessEvent} (hr : ofPublisher r = true)
    (hs : Publisher.ProcessStep p r p') :
    p'.2.passed = p.2.passed ∧ p'.2.full = p.2.full ∧ p'.1.session.worker = p.1.session.worker := by
  have hnext : ∀ {x : Publisher.Event} {q : Publisher.Process}, x.isWorker = false →
      Publisher.Process.next p x q = some p' →
      p'.2.passed = p.2.passed ∧ p'.2.full = p.2.full ∧ p'.1.session.worker = p.1.session.worker := by
    intro x q hx hq
    obtain ⟨s', l', ⟨hstep, hlog⟩, rfl⟩ := Publisher.Process.next_eq_some hq
    simp only at hlog
    subst hlog
    cases x with
    | test | send | close =>
        simp only [Publisher.Step, Publisher.step] at hstep
        split at hstep
        · cases hstep
          exact ⟨rfl, rfl, rfl⟩
        · cases hstep
    | read | eof | write => cases hx
  cases r with
  | worker => cases hr
  | test => exact hnext rfl hs
  | line =>
      simp only [Publisher.ProcessStep, Publisher.processStep] at hs
      split at hs
      · cases hs
      · split at hs
        · exact hnext rfl hs
        · exact hnext rfl hs
  | sigpipe =>
      simp only [Publisher.ProcessStep, Publisher.processStep] at hs
      split at hs
      · cases hs
      · split at hs
        · cases hs
        · exact hnext rfl hs
  | leave =>
      simp only [Publisher.ProcessStep, Publisher.processStep] at hs
      split at hs
      · exact hnext rfl hs
      · cases hs
  | sigint =>
      cases hs
      exact ⟨rfl, rfl, rfl⟩

end Publishers

/-! ## Subscribers -/

section Subscribers

open Subscriber (Printing)

variable {q q' : Subscriber.Process × List CString} {es : List Subscriber.Event}

/-- The texts of the messages among the events. -/
def textOf : Subscriber.Event → Option CString
  | .send text => some text.1
  | _ => none

/-- A step of the worker at the other end. -/
def ofWorker : Subscriber.Event → Bool
  | .test | .send _ | .close => true
  | _ => false

theorem processStep_of_ofWorker {e : Subscriber.Event} (he : ofWorker e = true)
    (hs : Subscriber.ProcessStep q (.session e) q') :
    q'.2 = q.2 ++ (textOf e).toList ∧ q'.1.session.texts = q.1.session.texts ∧ (Gone q'.1 ↔ Gone q.1) := by
  cases hs.outcome with
  | session ho =>
      cases ho with
      | test | close => exact ⟨(List.append_nil _).symm, rfl, Iff.rfl⟩
      | send => exact ⟨rfl, rfl, Iff.rfl⟩
      | readTest | readMessage | eofTest | eofAccepted | eofReading | print => cases he
  | print => cases he

theorem deliver_eq_some (he : ∀ e ∈ es, ofWorker e = true) (hq : Printing q) (hd : deliver q es = some q') :
    Printing q' ∧ q'.2 = q.2 ++ es.filterMap textOf ∧ (Gone q'.1 ↔ Gone q.1) := by
  induction es generalizing q with
  | nil =>
      cases hd
      exact ⟨hq, (List.append_nil _).symm, Iff.rfl⟩
  | cons e es ih =>
      obtain ⟨q₁, hs, hrest⟩ := Option.bind_eq_some_iff.mp hd
      have hs : Subscriber.ProcessStep q (.session e) q₁ := hs
      have hworker := he e List.mem_cons_self
      have hq₁ : Printing q₁ := by
        refine hq.step ?_ hs.outcome
        cases e with
        | test | send | close => trivial
        | read | eof | print => cases hworker
      obtain ⟨htexts, -, hgone⟩ := processStep_of_ofWorker hworker hs
      obtain ⟨hq', htexts', hgone'⟩ := ih (fun e he' => he e (List.mem_cons_of_mem _ he')) hq₁ hrest
      refine ⟨hq', ?_, hgone'.trans hgone⟩
      rw [htexts', htexts, List.append_assoc]
      cases e <;> rfl

theorem handOver_eq_some (he : ∀ e ∈ es, ofWorker e = true) (hq : Printing q) (hh : handOver q es = some q') :
    Printing q' ∧ (Gone q.1 ∧ q' = q ∨ ¬ Gone q.1 ∧ ¬ Gone q'.1 ∧ q'.2 = q.2 ++ es.filterMap textOf) := by
  unfold handOver at hh
  split at hh
  · rename_i hgone
    cases hh
    exact ⟨hq, Or.inl ⟨hgone, rfl⟩⟩
  · rename_i hgone
    obtain ⟨hq', htexts, hiff⟩ := deliver_eq_some he hq hh
    exact ⟨hq', Or.inr ⟨hgone, mt hiff.mp hgone, htexts⟩⟩

/-- A subscriber that is gone does not come back. -/
theorem Gone.step {e : Subscriber.ProcessEvent} (h : Gone q.1) (hs : Subscriber.ProcessStep q e q') : Gone q'.1 := by
  cases hs.outcome with
  | kill => exact Or.inl rfl
  | closePipe => exact Or.inr rfl
  | _ => exact h

/-- A subscriber that is gone takes no step itself, and none adds to what was written. -/
theorem written_of_subscriber {e : Subscriber.ProcessEvent} (hq : Printing q) (he : ofSubscriber e = true)
    (hs : Subscriber.ProcessStep q e q') : ¬ Gone q.1 ∧ q'.2 = q.2 := by
  obtain ⟨hstep, hw⟩ := withRecord_eq_some.mp hs
  have htexts : q'.2 = q.2 := by
    rw [hw]
    cases e with
    | session e =>
        cases e with
        | test | send | close => cases he
        | read | eof | print => rfl
    | sigint | interrupted | enter | leave | closePipe => rfl
  refine ⟨?_, htexts⟩
  rintro (hkilled | hclosed)
  · cases e with
    | session e =>
        cases e with
        | test | send | close => cases he
        | read | eof | print => simp [Subscriber.processStep, hkilled] at hstep
    | sigint | interrupted | enter | leave | closePipe => simp [Subscriber.processStep, hkilled] at hstep
  · have hexit := hq.shut hclosed
    cases e with
    | session e =>
        cases e with
        | test | send | close => cases he
        | read | eof | print => simp [Subscriber.processStep, Subscriber.step, hexit] at hstep
    | sigint | interrupted | enter | leave | closePipe =>
        simp [Subscriber.processStep, Subscriber.Session.readFailed, hexit, hclosed] at hstep

theorem sendEvents_ofWorker {texts : List CString} (h : ∀ t ∈ texts, t.strlen < sizeofText) :
    (∀ e ∈ sendEvents texts h, ofWorker e = true) ∧ (sendEvents texts h).filterMap textOf = texts := by
  constructor
  · intro e he
    obtain ⟨t, -, rfl⟩ := List.mem_map.mp he
    rfl
  · rw [sendEvents, List.filterMap_map]
    have hall : (fun t : { t // t ∈ texts } => some t.1) =
        textOf ∘ fun t => Subscriber.Event.send ⟨t.1, h t.1 t.2⟩ := rfl
    rw [← hall, List.filterMap_eq_map', List.attach_map_subtype_val]

theorem writeEvents_ofWorker (b : Broker) (e : Sessions.Event) : ∀ x ∈ writeEvents b e, ofWorker x = true := by
  intro x hx
  unfold writeEvents at hx
  split at hx
  · rw [List.mem_singleton.mp hx]
    rfl
  · exact (sendEvents_ofWorker _).1 x hx
  · rw [List.mem_singleton.mp hx]
    rfl
  · rw [List.mem_singleton.mp hx]
    rfl
  · cases hx

end Subscribers

end Mbroker.Clients
