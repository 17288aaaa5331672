import Mbroker.Clients.Invariants
import Mbroker.Sessions.Progress

/-!
# Workers that can go on with their clients

A worker finds its end of a pipe as it has left it. So its client holds it up only if it is a publisher that has written
nothing since and has not closed the pipe.
-/

namespace Mbroker.Clients

open Mbroker.Lib Mbroker.Fs Mbroker.Protocol Mbroker.Sessions

variable {b b' : Broker} {e : Sessions.Event} {e' : Event} {s : Network} {x x' : Network × Record} {v w n : Nat}
  {p p' : Publisher.Process × Publisher.Log} {q q' : Subscriber.Process × List CString}

/-! ## The worker's end of a pipe -/

/-- Where a worker in the phase is in the session of its publisher. -/
def publisherEnd : Phase → Option Publisher.WorkerPhase
  | .pub _ | .pubOpened _ _ | .pubFound _ _ _ | .pubAccepted _ | .pubTesting _ => some .testing
  | .pubReading _ => some .reading
  | .pubWriting _ message => some (.writing message)
  | _ => none

/-- Where a worker in the phase is in the session of its subscriber. -/
def subscriberEnd : Phase → Option Subscriber.WorkerPhase
  | .sub _ | .subFound _ _ | .subOpened _ _ _ | .subAccepted _ => some .testing
  | .subCounted _ | .subRead _ | .subReplayed _ | .subWaiting _ _ | .subSending _ _ | .subEnding _ => some .sending
  | _ => none

theorem ends_start (d : Dispatch.Decoded) :
    (∀ q, publisherEnd (.start d) = some q → q = .testing) ∧ ∀ q, subscriberEnd (.start d) = some q → q = .testing := by
  have hsome : ∀ {α : Type} {a q : α}, some a = some q → q = a := fun h => (Option.some.inj h).symm
  exact Phase.start_of (P := fun p => (∀ q, publisherEnd p = some q → q = .testing) ∧
    ∀ q, subscriberEnd p = some q → q = .testing) ⟨nofun, nofun⟩ (fun _ => ⟨fun _ => hsome, nofun⟩)
    (fun _ => ⟨nofun, fun _ => hsome⟩) (fun _ => ⟨nofun, nofun⟩) (fun _ => ⟨nofun, nofun⟩) ⟨nofun, nofun⟩ d

/-- A worker is in the session of its client where its phase says, and the clients to come are at the start. -/
structure Meeting (s : Network) : Prop where
  publisher : ∀ w q, publisherEnd (s.broker.phase w) = some q → (s.publisher (s.client w)).1.session.worker = q
  subscriber : ∀ w q, subscriberEnd (s.broker.phase w) = some q → ¬ Gone (s.subscriber (s.client w)).1 →
    (s.subscriber (s.client w)).1.session.worker = q
  fresh : ∀ w n, s.taken w < n → (s.publisher (w, n)).1.session.worker = .testing ∧
    (s.subscriber (w, n)).1.session.worker = .testing

theorem Network.Started.meeting {input : Client → List UInt8} (h : s.Started input) : Meeting s where
  publisher := fun w q hq => by
    rw [h.broker.phase w] at hq
    cases hq
  subscriber := fun w q hq => by
    rw [h.broker.phase w] at hq
    cases hq
  fresh := fun w n _ => by
    obtain ⟨t, ht, hq⟩ := h.subscriber (w, n)
    refine ⟨(h.publisher (w, n)).1.session.worker, ?_⟩
    rw [hq]
    exact ht.worker

/-! ## Steps of a worker -/

/-- What the worker does at its end of the pipe of a publisher. -/
theorem worker_of_step {r : Publisher.Event} (hs : Publisher.ProcessStep p (.worker r) p') :
    Publisher.step p.1.session r = some p'.1.session := by
  simp only [Publisher.ProcessStep, Publisher.processStep] at hs
  split at hs
  · obtain ⟨t, l, ⟨hstep, -⟩, rfl⟩ := Publisher.Process.next_eq_some hs
    exact hstep
  · cases hs

theorem publisherEnd_step (ho : Sessions.Outcome b e b') (he : ∀ w d, e ≠ .take w d) (hr : receive b e p = some p')
    (h : ∀ q, publisherEnd (b.phase e.worker) = some q → p.1.session.worker = q) :
    ∀ q, publisherEnd (b'.phase e.worker) = some q → p'.1.session.worker = q := by
  cases ho with
  | take => exact absurd rfl (he _ _)
  | openPub hw | findPub hw | acceptPub hw | setPublishers hw =>
      cases hr
      dsimp only [Sessions.Event.worker] at h ⊢
      rw [hw] at h
      rw [Broker.setPhase_self]
      exact h
  | readProbe hw =>
      dsimp only [Sessions.Event.worker] at h ⊢
      rw [Broker.setPhase_self]
      intro q hq
      cases hq
      obtain ⟨hnone, -⟩ | ⟨r, hr, hs, -⟩ := receive_eq_some hr
      · cases hnone
      · have hstep := worker_of_step hs
        have hworker := h _ (by rw [hw]; rfl)
        cases hr
        split at hstep
        all_goals
          simp only [Publisher.step, hworker] at hstep
          split at hstep
          all_goals simp only [reduceCtorEq, Option.some.injEq] at hstep
          rw [← hstep]
  | readMessage hw =>
      dsimp only [Sessions.Event.worker] at h ⊢
      rw [Broker.setPhase_self]
      intro q hq
      cases hq
      obtain ⟨hnone, -⟩ | ⟨r, -, -, hreceived⟩ := receive_eq_some hr
      · cases hnone
      · exact hreceived
  | @publish w t message box n fs hw hbox hlock hwrite hn =>
      dsimp only [Sessions.Event.worker] at h ⊢
      rw [Broker.setPhase_self]
      intro q hq
      cases hq
      obtain ⟨hnone, -⟩ | ⟨r, hr, hs, -⟩ := receive_eq_some hr
      · cases hnone
      · have hstep := worker_of_step hs
        have hworker := h _ (by rw [hw]; rfl)
        simp only [readEvent, bytesWritten, hw, hwrite, Option.some.injEq] at hr
        subst hr
        simp only [Publisher.step, hworker, Option.some.injEq] at hstep
        rw [← hstep]
        exact if_pos hn
  | openCreate | tfsUnlink =>
      dsimp only [Sessions.Event.worker]
      rw [Broker.setPhase_self]
      intro q hq
      split at hq <;> cases hq
  | _ =>
      dsimp only [Sessions.Event.worker]
      rw [Broker.setPhase_self]
      intro q hq
      cases hq

/-- Messages go into the pipe, and change nothing else. -/
theorem deliver_sends {es : List Subscriber.Event} (he : ∀ e ∈ es, ∃ t, e = .send t) (hd : deliver q es = some q') :
    ∃ pipe, q'.1 = { q.1 with session := { q.1.session with pipe := pipe } } ∧
      pipe.length = q.1.session.pipe.length + sizeofMessage * es.length := by
  induction es generalizing q with
  | nil =>
      cases hd
      exact ⟨_, rfl, rfl⟩
  | cons e es ih =>
      obtain ⟨q₁, hs, hrest⟩ := Option.bind_eq_some_iff.mp hd
      have hs : Subscriber.ProcessStep q (.session e) q₁ := hs
      obtain ⟨t, rfl⟩ := he e List.mem_cons_self
      obtain ⟨pipe, hq', hlen⟩ := ih (fun e he' => he e (List.mem_cons_of_mem _ he')) hrest
      refine ⟨pipe, ?_, ?_⟩
      · rw [hq']
        cases hs.outcome with
        | session ho =>
            cases ho with
            | send => rfl
      · rw [hlen, List.length_cons, Nat.mul_succ]
        cases hs.outcome with
        | session ho =>
            cases ho with
            | send => rw [List.length_append, length_sendMessage, Nat.add_assoc, Nat.add_comm sizeofMessage]

theorem sendEvents_send {texts : List CString} (ht : ∀ t ∈ texts, t.strlen < sizeofText) :
    ∀ e ∈ sendEvents texts ht, ∃ t, e = .send t := by
  intro e he
  obtain ⟨t, -, rfl⟩ := List.mem_map.mp he
  exact ⟨_, rfl⟩

theorem handOver_of_alive {es : List Subscriber.Event} (hh : handOver q es = some q') (halive : ¬ Gone q'.1) :
    ¬ Gone q.1 ∧ deliver q es = some q' := by
  unfold handOver at hh
  split at hh
  · rename_i hgone
    cases hh
    exact absurd hgone halive
  · rename_i hgone
    exact ⟨hgone, hh⟩

theorem subscriberEnd_step (ho : Sessions.Outcome b e b') (he : ∀ w d, e ≠ .take w d)
    (hh : handOver q (writeEvents b e) = some q') (halive : ¬ Gone q'.1)
    (h : ∀ r, subscriberEnd (b.phase e.worker) = some r → ¬ Gone q.1 → q.1.session.worker = r) :
    ∀ r, subscriberEnd (b'.phase e.worker) = some r → q'.1.session.worker = r := by
  obtain ⟨hold, hd⟩ := handOver_of_alive hh halive
  cases ho with
  | take => exact absurd rfl (he _ _)
  | findSub hw | openSub hw | acceptSub hw | readBox hw | sample hw | wake hw | sendFailed hw =>
      cases hd
      dsimp only [Sessions.Event.worker] at h ⊢
      rw [hw] at h
      rw [Broker.setPhase_self]
      exact fun r hr => h r hr hold
  | countSubscriber hw =>
      dsimp only [Sessions.Event.worker]
      rw [Broker.setPhase_self]
      intro r hr
      cases hr
      obtain ⟨q₁, hs, hrest⟩ := Option.bind_eq_some_iff.mp hd
      obtain rfl : q₁ = q' := Option.some.inj hrest
      have hs : Subscriber.ProcessStep q (.session .test) q₁ := hs
      cases hs.outcome with
      | session ho =>
          cases ho with
          | test => rfl
  | @replay w t hw =>
      rw [writeEvents] at hd
      dsimp only [Sessions.Event.worker] at h ⊢
      rw [hw] at h
      obtain ⟨pipe, hq', -⟩ := deliver_sends (sendEvents_send _) hd
      rw [Broker.setPhase_self, hq']
      exact fun r hr => h r hr hold
  | send hw =>
      dsimp only [Sessions.Event.worker] at h ⊢
      rw [hw] at h
      obtain ⟨pipe, hq', -⟩ := deliver_sends (fun e he => ⟨_, List.mem_singleton.mp he⟩) hd
      rw [Broker.setPhase_self, hq']
      exact fun r hr => h r hr hold
  | openCreate | tfsUnlink =>
      dsimp only [Sessions.Event.worker]
      rw [Broker.setPhase_self]
      intro r hr
      split at hr <;> cases hr
  | _ =>
      dsimp only [Sessions.Event.worker]
      rw [Broker.setPhase_self]
      intro r hr
      cases hr

/-- A subscriber itself leaves the worker where it is. -/
theorem worker_of_subscriber {e : Subscriber.ProcessEvent} (he : ofSubscriber e = true)
    (hs : Subscriber.ProcessStep q e q') : q'.1.session.worker = q.1.session.worker := by
  have htest : ∀ s : Subscriber.Session, s.test.worker = s.worker := fun s => by
    unfold Subscriber.Session.test
    split <;> rfl
  cases hs.outcome with
  | sigint | kill | enter | leave | closePipe => rfl
  | print => exact (Subscriber.Session.print_fields _ _ _).2.1
  | interrupted hf =>
      unfold Subscriber.Session.readFailed at hf
      split at hf
      · cases hf
        exact htest _
      · cases hf
        rfl
      · cases hf
        rfl
      · cases hf
  | session ho =>
      cases ho with
      | test | send | close => cases he
      | readTest | eofTest => exact htest _
      | readMessage | eofAccepted | eofReading => rfl
      | print => exact absurd rfl ‹_›

theorem Meeting.publisher_step {c : Client} {r : Publisher.ProcessEvent} (h : Meeting s) (hr : ofPublisher r = true)
    (hp : Publisher.ProcessStep (s.publisher c) r p) :
    Meeting { s with publisher := Function.update s.publisher c p } := by
  have hsame : ∀ c', (Function.update s.publisher c p c').1.session.worker = (s.publisher c').1.session.worker := by
    intro c'
    by_cases hc : c' = c
    · rw [hc, Function.update_self]
      exact (passed_of_publisher hr hp).2.2
    · rw [Function.update_of_ne hc]
  exact ⟨fun w q hq => (hsame _).trans (h.publisher w q hq), h.subscriber,
    fun w n hn => ⟨(hsame _).trans (h.fresh w n hn).1, (h.fresh w n hn).2⟩⟩

theorem Meeting.subscriber_step {c : Client} {r : Subscriber.ProcessEvent} (h : Meeting s)
    (hr : ofSubscriber r = true) (hq : Subscriber.ProcessStep (s.subscriber c) r q) :
    Meeting { s with subscriber := Function.update s.subscriber c q } := by
  have hsame : ∀ c', (Function.update s.subscriber c q c').1.session.worker = (s.subscriber c').1.session.worker ∧
      (¬ Gone (Function.update s.subscriber c q c').1 → ¬ Gone (s.subscriber c').1) := by
    intro c'
    by_cases hc : c' = c
    · rw [hc, Function.update_self]
      exact ⟨worker_of_subscriber hr hq, fun hn hgone => hn (hgone.step hq)⟩
    · rw [Function.update_of_ne hc]
      exact ⟨rfl, id⟩
  exact ⟨h.publisher, fun w r hr hgone => (hsame _).1.trans (h.subscriber w r hr ((hsame _).2 hgone)),
    fun w n hn => ⟨(h.fresh w n hn).1, (hsame _).1.trans (h.fresh w n hn).2⟩⟩

theorem Meeting.step (h : Meeting x.1) (ho : Outcome x e' x') : Meeting x'.1 := by
  cases ho with
  | sigpipe | opens | leaves | meets => exact ⟨h.publisher, h.subscriber, h.fresh⟩
  | publisher hr hp => exact h.publisher_step hr hp
  | subscriber hr hq => exact h.subscriber_step hr hq
  | @worker e b p q s' hable hb hp hq hs' =>
      have ho := Sessions.Step.outcome hb
      have hb' : s'.broker = b := by rw [hs']
      have ht' : s'.taken = takenAfter x.1.taken e := by rw [hs']
      have hpub : s'.publisher = Function.update x.1.publisher (x.1.client e.worker) p := by rw [hs']
      have hsub : s'.subscriber = Function.update x.1.subscriber (x.1.client e.worker) q := by rw [hs']
      have hfresh : ∀ w n, s'.taken w < n → (w, n) ≠ x.1.client e.worker ∧ x.1.taken w < n := by
        intro w n hn
        rw [ht'] at hn
        have hlt := (le_takenAfter _ _ _).trans_lt hn
        refine ⟨fun hc => ?_, hlt⟩
        obtain ⟨rfl, rfl⟩ := Prod.ext_iff.mp hc
        exact lt_irrefl _ hlt
      have hothers : ∀ v, v ≠ e.worker → s'.client v = x.1.client v ∧ s'.client v ≠ x.1.client e.worker := by
        intro v hv
        rw [client_others ht' hv]
        exact ⟨rfl, client_ne _ _ hv⟩
      have htaken : ∀ w d, e = .take w d → b.phase w = .start d ∧ s'.client w = (w, x.1.taken w + 1) ∧
          s'.client w ≠ x.1.client w := by
        rintro w d rfl
        have hclient := client_take ht'
        refine ⟨?_, hclient, ?_⟩
        · cases ho with
          | take => exact Broker.setPhase_self _ _ _
        · rw [hclient]
          exact fun hc => Nat.succ_ne_self _ (congrArg Prod.snd hc)
      refine ⟨fun v r hr => ?_, fun v r hr halive => ?_, fun w n hn => ?_⟩
      · simp only [hb', hpub] at hr ⊢
        by_cases hv : v = e.worker
        · subst hv
          by_cases htake : ∃ w d, e = .take w d
          · obtain ⟨w, d, rfl⟩ := htake
            obtain ⟨hphase, hclient, hne⟩ := htaken w d rfl
            dsimp only [Sessions.Event.worker] at hr ⊢
            rw [hphase] at hr
            rw [Function.update_of_ne hne, hclient, (ends_start d).1 r hr]
            exact (h.fresh w _ (Nat.lt_succ_self _)).1
          · have he : ∀ w d, e ≠ .take w d := fun w d h => htake ⟨w, d, h⟩
            rw [client_eq ht' he, Function.update_self]
            exact publisherEnd_step ho he hp (h.publisher e.worker) r hr
        · obtain ⟨hsame, hne⟩ := hothers v hv
          rw [Function.update_of_ne hne, hsame]
          rw [(ho.others hv).1] at hr
          exact h.publisher v r hr
      · simp only [hb', hsub] at hr halive ⊢
        by_cases hv : v = e.worker
        · subst hv
          by_cases htake : ∃ w d, e = .take w d
          · obtain ⟨w, d, rfl⟩ := htake
            obtain ⟨hphase, hclient, hne⟩ := htaken w d rfl
            dsimp only [Sessions.Event.worker] at hr ⊢
            rw [hphase] at hr
            rw [Function.update_of_ne hne, hclient, (ends_start d).2 r hr]
            exact (h.fresh w _ (Nat.lt_succ_self _)).2
          · have he : ∀ w d, e ≠ .take w d := fun w d h => htake ⟨w, d, h⟩
            rw [client_eq ht' he, Function.update_self] at halive ⊢
            exact subscriberEnd_step ho he hq halive (h.subscriber e.worker) r hr
        · obtain ⟨hsame, hne⟩ := hothers v hv
          rw [Function.update_of_ne hne, hsame] at halive ⊢
          rw [(ho.others hv).1] at hr
          exact h.subscriber v r hr halive
      · obtain ⟨hne, hlt⟩ := hfresh w n hn
        simp only [hpub, hsub, Function.update_of_ne hne]
        exact h.fresh w n hlt

/-! ## The next step -/

/-- The workers remove no box of a session, and find room for every message. -/
def Undisturbed (s : Network) : Event → Prop
  | .worker e => Sessions.Undisturbed s.broker e
  | _ => True

instance (s : Network) : DecidablePred (Undisturbed s)
  | .worker e => inferInstanceAs (Decidable (Sessions.Undisturbed s.broker e))
  | .sigpipe _ | .opens _ | .leaves _ | .meets _ | .publisher _ _ | .subscriber _ _ => isTrue trivial

/-- The worker can take a step with its client as it is, be it the one that kills the broker. -/
def CanStep (s : Network) (w : Nat) : Prop :=
  (∃ s', step s (.meets w) = some s') ∨
    ∃ e s', e.worker = w ∧ (step s (.worker e) = some s' ∨ step s (.sigpipe e) = some s')

/-- The worker waits in `open` for its client, which is not there yet, or not any more. -/
def AwaitsOpen (s : Network) (w : Nat) : Prop :=
  (s.broker.phase w).opens = true ∧ (s.arrival (s.client w) = .ahead ∨ s.arrival (s.client w) = .lost)

/-- The worker is not at an `open`, and waits for the lock of the list. -/
def AwaitsList (s : Network) (w : Nat) : Prop :=
  ((s.broker.phase w).opens = true → s.arrival (s.client w) = .through) ∧ WaitsForListing s.broker w

/-- The worker reads from the pipe of its publisher, which is empty and not closed. -/
def AwaitsPublisher (s : Network) (w : Nat) : Prop :=
  (∃ t, s.broker.phase w = .pubTesting t ∨ s.broker.phase w = .pubReading t) ∧
    (s.publisher (s.client w)).1.session.pipe = [] ∧ (s.publisher (s.client w)).1.session.client ≠ .closed

theorem CanStep.of_step (hable : Able s e) (hs : Sessions.Step s.broker e b)
    (hp : receive s.broker e (s.publisher (s.client e.worker)) = some p)
    (hq : handOver (s.subscriber (s.client e.worker)) (writeEvents s.broker e) = some q) : CanStep s e.worker := by
  have hstep : Sessions.step s.broker e = some b := hs
  refine Or.inr ?_
  by_cases hfatal : Fatal s e
  · exact ⟨e, { s with killed := true }, rfl, Or.inr (by
      simp only [step, if_pos (And.intro hable hfatal), hstep, Option.map_some])⟩
  · obtain ⟨s', hs'⟩ : ∃ s', step s (.worker e) = some s' := by
      simp only [step, if_pos (And.intro hable hfatal), hstep, hp, hq, Option.bind_some, Option.map_some]
      exact ⟨_, rfl⟩
    exact ⟨e, s', rfl, Or.inl hs'⟩

/-- The worker meets its client, or takes a step of the broker that the clients hold up or not. -/
theorem CanStep.cases (h : CanStep s w) :
    (s.killed = false ∧ (s.broker.phase w).opens = true ∧ s.arrival (s.client w) = .waiting) ∨
    ∃ e b, e.worker = w ∧ Able s e ∧ Sessions.Step s.broker e b ∧
      (Fatal s e ∨ ∃ p, receive s.broker e (s.publisher (s.client e.worker)) = some p) := by
  obtain ⟨s', hs⟩ | ⟨e, s', he, hs | hs⟩ := h
  · simp only [step] at hs
    split at hs
    · rename_i hmeet
      exact Or.inl hmeet
    · cases hs
  · simp only [step] at hs
    split at hs
    · rename_i hable
      obtain ⟨b, hb, hs⟩ := Option.bind_eq_some_iff.mp hs
      obtain ⟨p, hp, -⟩ := Option.bind_eq_some_iff.mp hs
      exact Or.inr ⟨e, b, he, hable.1, hb, Or.inr ⟨p, hp⟩⟩
    · cases hs
  · simp only [step] at hs
    split at hs
    · rename_i hable
      obtain ⟨b, hb, -⟩ := Option.map_eq_some_iff.mp hs
      exact Or.inr ⟨e, b, he, hable.1, hb, Or.inl hable.2⟩
    · cases hs

/-- A worker can be killed only where it writes. -/
theorem Fatal.writes_ne (h : Fatal s e) : writes s.broker e ≠ 0 := by
  intro hnone
  simp only [Fatal, failures, hnone, ite_self] at h
  exact Nat.not_lt_zero _ h

/-- A read of the worker that its end of the pipe and the bytes in it allow. -/
theorem exists_receive {r : Publisher.Event} {t : Publisher.Session} (hr : readEvent b e p.1.session = some r)
    (hw : r.isWorker = true) (ht : Publisher.step p.1.session r = some t) (hreceived : Received e t) :
    ∃ p', receive b e p = some p' := by
  refine ⟨({ p.1 with session := t }, p.2.next p.1.session r), ?_⟩
  simp only [receive, hr, Publisher.processStep, if_pos hw, Publisher.Process.next, Publisher.loggedStep, ht,
    Option.map_some, Option.filter_some, hreceived, decide_true, ↓reduceIte]

/-- A write of the worker that its end of the pipe allows reaches a subscriber that is there. -/
theorem exists_write {r : Subscriber.Event} {t : Subscriber.Session} (halive : ¬ Gone q.1)
    (hr : ofWorker r = true) (ht : Subscriber.step q.1.session r = some t) :
    withRecord Subscriber.processStep Subscriber.processWritten q (.session r) =
      some ({ q.1 with session := t }, Subscriber.written q.2 q.1.session r t) := by
  simp only [Gone, not_or, Bool.not_eq_true] at halive
  have hprint : r ≠ .print := by
    rintro rfl
    cases hr
  have hcond : ¬ (q.1.killed = true ∧ r ≠ .close ∨ r = .print ∧ q.1.tested = false ∨
      r.isWrite = true ∧ q.1.closed = true) := by
    simp [halive.1, halive.2, hprint]
  have hsame : (q.1.tested && decide (r ≠ .print)) = q.1.tested := by simp [hprint]
  simp only [withRecord, Subscriber.processStep, if_neg hcond, ht, Option.map_some, Subscriber.processWritten, hsame]

theorem exists_deliver {r : Subscriber.Event} {t : Subscriber.Session} (halive : ¬ Gone q.1)
    (hr : ofWorker r = true) (ht : Subscriber.step q.1.session r = some t) : ∃ q', deliver q [r] = some q' := by
  refine ⟨({ q.1 with session := t }, Subscriber.written q.2 q.1.session r t), ?_⟩
  rw [deliver, exists_write halive hr ht]
  rfl

theorem exists_sends {es : List Subscriber.Event} (he : ∀ e ∈ es, ∃ t, e = .send t) (halive : ¬ Gone q.1)
    (hw : q.1.session.worker = .sending) : ∃ q', deliver q es = some q' := by
  induction es generalizing q with
  | nil => exact ⟨q, rfl⟩
  | cons e es ih =>
      obtain ⟨t, rfl⟩ := he e List.mem_cons_self
      have hsend : Subscriber.step q.1.session (.send t) =
          some { q.1.session with pipe := q.1.session.pipe ++ sendMessage subscriberCode t.1 } := by
        simp only [Subscriber.step, hw]
      have hwrite := exists_write halive rfl hsend
      obtain ⟨q', hq'⟩ := ih (q := ({ q.1 with session := _ }, _)) (fun e he' => he e (List.mem_cons_of_mem _ he'))
        (show ¬ Gone { q.1 with
          session := { q.1.session with pipe := q.1.session.pipe ++ sendMessage subscriberCode t.1 } } from halive) hw
      exact ⟨q', by rw [deliver, hwrite]; exact hq'⟩

/-- What a worker writes, it can write. -/
theorem Meeting.handOver (h : Meeting s) (ho : Sessions.Outcome s.broker e b) :
    ∃ q, handOver (s.subscriber (s.client e.worker)) (writeEvents s.broker e) = some q := by
  by_cases hgone : Gone (s.subscriber (s.client e.worker)).1
  · exact ⟨_, if_pos hgone⟩
  · have hend : ∀ {r}, subscriberEnd (s.broker.phase e.worker) = some r →
        (s.subscriber (s.client e.worker)).1.session.worker = r := fun hr => h.subscriber _ _ hr hgone
    simp only [Clients.handOver, if_neg hgone]
    cases ho with
    | @countSubscriber w t box hw =>
        have hworker := hend (by dsimp only [Sessions.Event.worker]; rw [hw]; rfl)
        exact exists_deliver hgone rfl (by dsimp only [Subscriber.step]; rw [hworker])
    | @uncountSubscriber w t box hw =>
        have hworker := hend (by dsimp only [Sessions.Event.worker]; rw [hw]; rfl)
        exact exists_deliver hgone rfl (by dsimp only [Subscriber.step]; rw [hworker])
    | @replay w t hw =>
        have hworker := hend (by dsimp only [Sessions.Event.worker]; rw [hw]; rfl)
        rw [writeEvents]
        exact exists_sends (sendEvents_send _) hgone hworker
    | @send w t last hw =>
        have hworker := hend (by dsimp only [Sessions.Event.worker]; rw [hw]; rfl)
        rw [writeEvents]
        exact exists_sends (fun e he => ⟨_, List.mem_singleton.mp he⟩) hgone hworker
    | _ => exact ⟨_, rfl⟩

/-- A worker at a read takes what is in the pipe of its publisher, or finds it closed. -/
theorem Meeting.reads (h : Meeting s) (hk : s.killed = false) (hp : ¬ AwaitsPublisher s w) {t : Session}
    (hw : s.broker.phase w = .pubTesting t ∨ s.broker.phase w = .pubReading t) : CanStep s w := by
  have hsome : (s.publisher (s.client w)).1.session.pipe = [] →
      (s.publisher (s.client w)).1.session.client = .closed := by
    intro hpipe
    by_contra hopen
    exact hp ⟨⟨t, hw⟩, hpipe, hopen⟩
  have hable : ∀ {e}, e.worker = w → Sends s e → Able s e := by
    rintro e rfl hsends
    refine ⟨hk, fun hopens => ?_, hsends⟩
    obtain hw | hw := hw
    all_goals
      rw [hw] at hopens
      cases hopens
  obtain hw | hw := hw
  · have hworker := h.publisher w .testing (by rw [hw]; rfl)
    have hs : Sessions.Step s.broker (.readProbe w) (s.broker.setPhase w (.pubReading t)) := by
      simp only [Sessions.Step, Sessions.step, hw]
    by_cases hpipe : (s.publisher (s.client w)).1.session.pipe = []
    · obtain ⟨p, hp⟩ := exists_receive (b := s.broker) (e := .readProbe w) (p := s.publisher (s.client w)) (r := .eof)
        (by simp only [readEvent, if_pos hpipe]) rfl
        (by simp only [Publisher.step, hpipe, hsome hpipe, and_self, ↓reduceIte, hworker]; rfl) trivial
      exact .of_step (e := .readProbe w) (hable rfl trivial) hs hp (ite_self _)
    · obtain ⟨p, hp⟩ := exists_receive (b := s.broker) (e := .readProbe w) (p := s.publisher (s.client w)) (r := .read)
        (by simp only [readEvent, if_neg hpipe]) rfl
        (by simp only [Publisher.step, if_neg hpipe, hworker]; rfl) trivial
      exact .of_step (e := .readProbe w) (hable rfl trivial) hs hp (ite_self _)
  · have hworker := h.publisher w .reading (by rw [hw]; rfl)
    by_cases hpipe : (s.publisher (s.client w)).1.session.pipe = []
    · have hs : Sessions.Step s.broker (.readEnd w) (s.broker.setPhase w (.pubEnding t)) := by
        simp only [Sessions.Step, Sessions.step, hw]
      obtain ⟨p, hp⟩ := exists_receive (b := s.broker) (e := .readEnd w) (p := s.publisher (s.client w)) (r := .eof)
        rfl rfl (by simp only [Publisher.step, hpipe, hsome hpipe, and_self, ↓reduceIte, hworker]; rfl) trivial
      exact .of_step (e := .readEnd w) (hable rfl trivial) hs hp (ite_self _)
    · obtain ⟨message, hmessage⟩ : ∃ message, message = messageText (readPipe
        (s.publisher (s.client w)).1.session.messageBuffer 0 sizeofMessage
        (s.publisher (s.client w)).1.session.pipe) := ⟨_, rfl⟩
      have hlen : message.strlen ≤ sizeofText := by
        rw [hmessage]
        exact strlen_removeStringsFromBuffer_le _ _
      have hs : Sessions.Step s.broker (.readMessage w message) (s.broker.setPhase w (.pubWriting t message)) := by
        simp only [Sessions.Step, Sessions.step, hw, if_pos hlen]
      obtain ⟨p, hp⟩ := exists_receive (b := s.broker) (e := .readMessage w message) (p := s.publisher (s.client w))
        (r := .read) rfl rfl (by simp only [Publisher.step, if_neg hpipe, hworker]; rfl) (by rw [hmessage]; rfl)
      exact .of_step (e := .readMessage w message) (hable rfl trivial) hs hp (ite_self _)

/-- A worker that awaits its publisher cannot step. -/
theorem AwaitsPublisher.not_canStep (h : AwaitsPublisher s w) : ¬ CanStep s w := by
  obtain ⟨⟨t, hphase⟩, hpipe, hopen⟩ := h
  intro hcan
  obtain ⟨-, hopens, -⟩ | ⟨e, b, rfl, -, hs, hrest⟩ := hcan.cases
  · obtain hphase | hphase := hphase
    all_goals
      rw [hphase] at hopens
      cases hopens
  have hread : writes s.broker e = 0 ∧
      ∃ r, readEvent s.broker e (s.publisher (s.client e.worker)).1.session = some r ∧ (r = .read ∨ r = .eof) := by
    obtain hphase | hphase := hphase
    · obtain ⟨phase, -, hm⟩ := hs.outcome.moves hphase
      cases hm with
      | readProbe => exact ⟨rfl, .eof, congrArg some (if_pos hpipe), Or.inr rfl⟩
    · obtain ⟨phase, -, hm⟩ := hs.outcome.moves hphase
      cases hm with
      | readMessage => exact ⟨rfl, .read, rfl, Or.inl rfl⟩
      | readEnd => exact ⟨rfl, .eof, rfl, Or.inr rfl⟩
  obtain ⟨hnone, r, hr, hr'⟩ := hread
  obtain hfatal | ⟨p, hp⟩ := hrest
  · exact hfatal.writes_ne hnone
  · obtain ⟨hsilent, -⟩ | ⟨r', hr₁, hstep, -⟩ := receive_eq_some hp
    · cases hsilent.symm.trans hr
    · cases hr₁.symm.trans hr
      have hstep := worker_of_step hstep
      obtain rfl | rfl := hr'
      · simp only [Publisher.step, hpipe, ↓reduceIte, reduceCtorEq] at hstep
      · simp only [Publisher.step, hopen, and_false, ↓reduceIte, reduceCtorEq] at hstep

/-- A worker at the write of a message sends it, or finds its subscriber gone. -/
theorem Meeting.sends (h : Meeting s) (hk : s.killed = false) {t : Session} {last : Nat}
    (hphase : s.broker.phase w = .subSending t last) : CanStep s w := by
  have hopens : (s.broker.phase w).opens = true → s.arrival (s.client w) = .through := by
    rw [hphase]
    nofun
  by_cases hgone : Gone (s.subscriber (s.client w)).1
  · have hs : Sessions.Step s.broker (.send w false) (s.broker.setPhase w (.subEnding t)) := by
      simp only [Sessions.Step, Sessions.step, hphase, Bool.false_eq_true, ↓reduceIte]
    obtain ⟨q, hq⟩ := h.handOver hs.outcome
    exact .of_step (e := .send w false) ⟨hk, hopens, by simp [Sends, hgone]⟩ hs rfl hq
  · have hs : Sessions.Step s.broker (.send w true)
        ((s.broker.write w [.message (firstMessage (s.broker.fullBoxBuffer w))]).setPhase w (.subWaiting t last)) := by
      simp only [Sessions.Step, Sessions.step, hphase, ↓reduceIte]
    obtain ⟨q, hq⟩ := h.handOver hs.outcome
    exact .of_step (e := .send w true) ⟨hk, hopens, by simp [Sends, hgone]⟩ hs rfl hq

/-- A worker at a `tfs_write` passes what it has read. -/
theorem Meeting.publishes (h : Meeting s) (hable : Able s (.publish w)) {t : Session} {message : CString}
    (hphase : s.broker.phase w = .pubWriting t message) (hs : Sessions.Step s.broker (.publish w) b) : CanStep s w := by
  have hworker := h.publisher w (.writing message) (by rw [hphase]; rfl)
  obtain ⟨p, hp⟩ := exists_receive (b := s.broker) (e := .publish w) (p := s.publisher (s.client w)) rfl rfl
    (by simp only [Publisher.step, hworker]; rfl) trivial
  obtain ⟨q, hq⟩ := h.handOver hs.outcome
  exact .of_step (e := .publish w) hable hs hp hq

/-- Behind the `open` a worker goes on as it does in the broker, but for a publisher that it awaits. -/
theorem Meeting.goesOn (h : Meeting s) (hk : s.killed = false)
    (hthrough : (s.broker.phase e.worker).opens = true → s.arrival (s.client e.worker) = .through)
    (hs : Sessions.Step s.broker e b) (hp : ¬ AwaitsPublisher s e.worker) : CanStep s e.worker := by
  have ho := Sessions.Step.outcome hs
  obtain ⟨q, hq⟩ := h.handOver ho
  have hable : Sends s e → Able s e := fun hsends => ⟨hk, hthrough, hsends⟩
  have hsilent : readEvent s.broker e (s.publisher (s.client e.worker)).1.session = none → Sends s e →
      CanStep s e.worker := fun hnone hsends =>
    .of_step (p := s.publisher (s.client e.worker)) (hable hsends) hs (by simp only [receive, hnone]) hq
  cases ho with
  | readProbe hphase => exact h.reads hk hp (Or.inl hphase)
  | readMessage hphase | readEnd hphase => exact h.reads hk hp (Or.inr hphase)
  | publish hphase | publishFull hphase => exact h.publishes (hable trivial) hphase hs
  | send hphase | sendFailed hphase => exact h.sends hk hphase
  | _ => exact hsilent rfl trivial

/-- A worker and its client that are both there meet. -/
theorem CanStep.of_meets (hk : s.killed = false) (hopens : (s.broker.phase w).opens = true)
    (hc : s.arrival (s.client w) = .waiting) : CanStep s w :=
  Or.inl ⟨s.arrive (s.client w) .through, by simp only [step, hk, hopens, hc, and_self, ↓reduceIte]⟩

/-- A worker can go on with its client exactly if the broker is there and it neither waits for the client's `open` nor
sleeps nor waits for the list nor awaits its publisher. -/
theorem Meeting.canStep_iff (h : Meeting s) (hgoing : Going s.broker) (hw : w < s.broker.numThreads) :
    CanStep s w ↔ s.killed = false ∧ ¬ AwaitsOpen s w ∧ ¬ Asleep s.broker w ∧ ¬ AwaitsList s w ∧
      ¬ AwaitsPublisher s w := by
  constructor
  · intro hcan
    obtain ⟨hk, hopens, hc⟩ | ⟨e, b, rfl, hable, hb, -⟩ := hcan.cases
    · refine ⟨hk, ?_, ?_, ?_, fun hawaits => hawaits.not_canStep hcan⟩
      · rintro ⟨-, ha | ha⟩ <;> cases hc.symm.trans ha
      · rintro ⟨t, last, box, hphase, -⟩
        rw [hphase] at hopens
        cases hopens
      · rintro ⟨hthrough, -⟩
        cases hc.symm.trans (hthrough hopens)
    · obtain ⟨hawake, hfree⟩ := (hgoing.canStep_iff hw).mp ⟨e, b, rfl, hb⟩
      refine ⟨hable.alive, ?_, hawake, fun hlist => hfree hlist.2, fun hawaits => hawaits.not_canStep hcan⟩
      rintro ⟨hopens, ha | ha⟩ <;> cases (hable.through hopens).symm.trans ha
  · rintro ⟨hk, hopen, hawake, hfree, hp⟩
    -- at the `open` the next step is to meet the client
    by_cases hmeet : (s.broker.phase w).opens = true ∧ s.arrival (s.client w) = .waiting
    · exact .of_meets hk hmeet.1 hmeet.2
    have hthrough : (s.broker.phase w).opens = true → s.arrival (s.client w) = .through := by
      intro hopens
      cases hc : s.arrival (s.client w) with
      | ahead => exact absurd ⟨hopens, Or.inl hc⟩ hopen
      | waiting => exact absurd ⟨hopens, hc⟩ hmeet
      | through => rfl
      | lost => exact absurd ⟨hopens, Or.inr hc⟩ hopen
    obtain ⟨e, b, rfl, hs⟩ := (hgoing.canStep_iff hw).mpr ⟨hawake, fun hwaits => hfree ⟨hthrough, hwaits⟩⟩
    exact h.goesOn hk hthrough hs hp

/-! ## Whole runs -/

/-- What the workers and the clients need to go on. -/
structure Ready (numThreads : Nat) (x : Network × Record) : Prop where
  meeting : Meeting x.1
  going : Going x.1.broker
  numThreads : x.1.broker.numThreads = numThreads

theorem Network.Started.ready {input : Client → List UInt8} (h : s.Started input) :
    Ready s.broker.numThreads (s, .empty) := ⟨h.meeting, h.broker.going, rfl⟩

theorem Ready.step (h : Ready n x) (hg : Undisturbed x.1 e') (ho : Outcome x e' x') : Ready n x' := by
  have hgoing : Going x'.1.broker ∧ x'.1.broker.numThreads = x.1.broker.numThreads := by
    cases ho with
    | sigpipe | opens | leaves | meets | publisher | subscriber => exact ⟨h.going, rfl⟩
    | worker _ hb _ _ hs' =>
        simp only [hs']
        exact ⟨h.going.step hg hb.outcome, hb.outcome.numThreads⟩
  exact ⟨h.meeting.step ho, hgoing.1, hgoing.2.trans h.numThreads⟩

theorem Ready.canStep_iff (h : Ready n x) (hw : w < n) :
    CanStep x.1 w ↔ x.1.killed = false ∧ ¬ AwaitsOpen x.1 w ∧ ¬ Asleep x.1.broker w ∧ ¬ AwaitsList x.1 w ∧
      ¬ AwaitsPublisher x.1 w :=
  h.meeting.canStep_iff h.going (by rw [h.numThreads]; exact hw)

end Mbroker.Clients
