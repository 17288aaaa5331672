import Mbroker.Clients.Progress

/-!
# A worker and its subscriber left alone

When no other client of the box stores a message and no signal comes, the two come to rest: every step of theirs brings
what was stored nearer to the output, and at rest it is there.
-/

namespace Mbroker.Clients

open Mbroker.Lib Mbroker.Fs Mbroker.Protocol Mbroker.Sessions

variable {b b' : Broker} {e : Sessions.Event} {e' : Event} {s s' : Network} {x x' : Network × Record}
  {t : Session} {n w : Nat} {p : Publisher.Process × Publisher.Log} {q q' : Subscriber.Process × List CString}

/-! ## The two -/

/-- A step of the worker, or one of its subscriber without a signal. -/
def OfSession (w : Nat) (x : Network × Record) : Event → Prop
  | .worker e | .sigpipe e => e.worker = w
  | .meets v => v = w
  | .opens _ | .leaves _ | .publisher _ _ => False
  | .subscriber c e => c = x.1.client w ∧ e ≠ .sigint ∧ e ≠ .interrupted

/-- Neither can take a step. -/
def AtRest (w : Nat) (x : Network × Record) : Prop := ∀ e x', OfSession w x e → ¬ Step x e x'

/-- The worker is in the session `t`, and its subscriber has read "test" and got no signal; nor has the broker. -/
structure Attached (w : Nat) (t : Session) (s : Network) : Prop where
  phase : (s.broker.phase w).awaiting = some t
  test : (s.subscriber (s.client w)).1.session.client ≠ .testing
  exit : (s.subscriber (s.client w)).1.session.client ≠ .exited
  ended : (s.subscriber (s.client w)).1.ended = false
  killed : (s.subscriber (s.client w)).1.killed = false
  closed : (s.subscriber (s.client w)).1.closed = false
  through : s.arrival (s.client w) = .through
  broker : s.killed = false

/-- The worker waits for news, and its subscriber waits for the next message. -/
structure Waiting (s : Network) (w : Nat) : Prop where
  worker : ∃ t last, (s.broker.phase w).following = some t ∧ (s.broker.phase w).waitSize = some last ∧
    s.broker.sizeAt t.boxData = some last
  client : (s.subscriber (s.client w)).1.session.client = .accepted ∨
    (s.subscriber (s.client w)).1.session.client = .reading
  pipe : (s.subscriber (s.client w)).1.session.pipe = []
  ended : (s.subscriber (s.client w)).1.ended = false
  killed : (s.subscriber (s.client w)).1.killed = false

theorem Attached.alive (h : Attached w t s) : ¬ Gone (s.subscriber (s.client w)).1 := by
  rintro (hkilled | hclosed)
  · cases h.killed.symm.trans hkilled
  · cases h.closed.symm.trans hclosed

theorem Attached.not_fatal (h : Attached e.worker t s) : ¬ Fatal s e := by
  rw [Fatal, failures, if_neg h.alive]
  exact Nat.not_lt_zero _

theorem subscriberEnd_of_awaiting {phase : Phase} (h : phase.awaiting = some t) :
    subscriberEnd phase = some .sending := by
  cases phase with
  | subRead | subReplayed | subWaiting | subSending => rfl
  | _ => cases h

theorem locksList_of_awaiting {phase : Phase} (h : phase.awaiting = some t) : phase.locksList = false := by
  cases phase with
  | subRead | subReplayed | subWaiting | subSending => rfl
  | _ => cases h

theorem opens_of_awaiting {phase : Phase} (h : phase.awaiting = some t) : phase.opens = false := by
  cases phase with
  | subRead | subReplayed | subWaiting | subSending => rfl
  | _ => cases h

/-- The worker has not closed the pipe. -/
theorem Attached.open (h : Attached w t s) (hm : Meeting s) :
    (s.subscriber (s.client w)).1.session.worker = .sending :=
  hm.subscriber w _ (subscriberEnd_of_awaiting h.phase) h.alive

/-! ## How much is left to do -/

/-- What the subscriber has to do for the bytes in the pipe. -/
def clientLeft (q : Subscriber.Process) : Nat :=
  3 * q.session.pipe.length + match q.session.client with
    | .printing _ _ => if q.tested then 1 else 2
    | _ => 0

/-- What the worker has to do, and the subscriber for what it is still to write. -/
def workerLeft (b : Broker) (w : Nat) : Nat :=
  match b.phase w with
  | .subRead _ => 3 * (sizeofMessage * (replay (b.fullBoxBuffer w)).length) + 2
  | .subReplayed _ => 1
  | .subWaiting t last => if b.sizeAt t.boxData = some last then 0 else 3 * sizeofMessage + 2
  | .subSending t last =>
    3 * sizeofMessage + 1 + if b.sizeAt t.boxData = some last then 0 else 3 * sizeofMessage + 2
  | _ => 0

def left (s : Network) (w : Nat) : Nat :=
  workerLeft s.broker w + clientLeft (s.subscriber (s.client w)).1

/-! ## Steps of the subscriber -/

/-- The subscriber stays attached, and has less to do. -/
theorem client_step {r : Subscriber.ProcessEvent} (htest : q.1.session.client ≠ .testing)
    (hexit : q.1.session.client ≠ .exited) (hended : q.1.ended = false) (hopen : q.1.session.worker ≠ .closed)
    (hr : ofSubscriber r = true) (hsignal : r ≠ .sigint ∧ r ≠ .interrupted) (hs : Subscriber.ProcessStep q r q') :
    q'.1.session.client ≠ .testing ∧ q'.1.session.client ≠ .exited ∧ q'.1.ended = false ∧ q'.1.killed = q.1.killed ∧
      q'.1.closed = q.1.closed ∧ clientLeft q'.1 < clientLeft q.1 := by
  cases hs.outcome with
  | sigint | kill => exact absurd rfl hsignal.1
  | interrupted => exact absurd rfl hsignal.2
  | leave _ he => cases hended.symm.trans he
  | closePipe hc => exact absurd hc hexit
  | enter hc _ htested =>
      refine ⟨htest, hexit, hended, rfl, rfl, ?_⟩
      simp [clientLeft, hc, htested]
  | print hc htested =>
      obtain ⟨hpipe, -, hclient⟩ := q.1.session.print_fields _ _
      refine ⟨by rw [hclient]; nofun, by rw [hclient]; nofun, hended, rfl, rfl, ?_⟩
      simp [clientLeft, hpipe, hclient, hc, htested]
  | session ho hprint =>
      cases ho with
      | test | send | close => cases hr
      | readTest hc | eofTest hc => exact absurd hc htest
      | eofAccepted _ _ hw | eofReading _ _ hw => exact absurd hw hopen
      | print => exact absurd rfl hprint
      | readMessage hc hne =>
          refine ⟨nofun, nofun, hended, rfl, rfl, ?_⟩
          have hpos : 0 < q.1.session.pipe.length := List.length_pos_iff.mpr hne
          have hsize : sizeofMessage = 1025 := rfl
          simp only [clientLeft, Subscriber.Session.take, List.length_drop]
          split <;> omega

/-! ## Steps of the worker -/

/-- The steps between the first `tfs_read` of a subscriber session and its end. -/
def inLoop : Sessions.Event → Bool
  | .replay _ | .sample _ | .wake _ | .send _ _ => true
  | _ => false

theorem inLoop_of_awaiting (ho : Sessions.Outcome b e b') (ht : (b.phase e.worker).awaiting = some t) :
    inLoop e = true := by
  obtain ⟨phase, -, hm⟩ := ho.moves rfl
  generalize b.phase e.worker = p at ht hm
  cases hm with
  | replay | sample | wake | send | sendFailed => rfl
  | _ => cases ht

/-- They remove nothing, store nothing and take no request. -/
theorem undisturbed_of_inLoop (he : inLoop e = true) (b : Broker) :
    Sessions.Undisturbed b e ∧ TakenBefore b e ∧ (∀ p, readEvent b e p = none) ∧ ∀ w d, e ≠ .take w d := by
  cases e with
  | replay | sample | wake | send => exact ⟨⟨trivial, trivial, trivial⟩, trivial, fun _ => rfl, fun _ _ h => by cases h⟩
  | _ => cases he

theorem since_of_inLoop (he : inLoop e = true) (r : Record) (s s' : Network) (c : Client) :
    (r.next s (.worker e) s').since c = r.since c := by
  cases e with
  | replay | sample | wake => rfl
  | send w written => cases written <;> rfl
  | _ => cases he

/-- The worker stays in its loop, and has less to do than it leaves to the subscriber. -/
theorem workerLeft_step (ho : Sessions.Outcome b e b') (ht : (b.phase e.worker).awaiting = some t)
    (hw : e ≠ .send e.worker false) (hd : deliver q (writeEvents b e) = some q') :
    (b'.phase e.worker).awaiting = some t ∧
      ∃ pipe, q'.1 = { q.1 with session := { q.1.session with pipe := pipe } } ∧
        workerLeft b' e.worker + 3 * pipe.length < workerLeft b e.worker + 3 * q.1.session.pipe.length := by
  have hloop := inLoop_of_awaiting ho ht
  cases ho with
  | @replay w t' hphase =>
      rw [writeEvents] at hd
      obtain ⟨pipe, hsame, hlen⟩ := deliver_sends (sendEvents_send _) hd
      dsimp only [Sessions.Event.worker] at ht ⊢
      rw [hphase] at ht
      refine ⟨by rw [Broker.setPhase_self]; exact ht, pipe, hsame, ?_⟩
      rw [hlen, sendEvents, List.length_map, List.length_attach]
      simp only [workerLeft, Broker.setPhase_self, hphase]
      omega
  | @sample w t' box hphase hbox =>
      cases hd
      dsimp only [Sessions.Event.worker] at ht ⊢
      rw [hphase] at ht
      refine ⟨by rw [Broker.setPhase_self]; exact ht, q.1.session.pipe, rfl, ?_⟩
      have hsize : ((b.setBox t'.boxData box).setPhase w (.subWaiting t' box.boxSize)).sizeAt t'.boxData =
          some box.boxSize := by
        rw [Broker.sizeAt]
        exact congrArg (Option.map BoxData.boxSize) BoxList.setBox_heap_same
      simp only [workerLeft, Broker.setPhase_self, hphase, hsize, ↓reduceIte]
      omega
  | @wake w t' last box n data fs hphase hbox hlock hne =>
      cases hd
      dsimp only [Sessions.Event.worker] at ht ⊢
      rw [hphase] at ht
      refine ⟨by rw [Broker.setPhase_self]; exact ht, q.1.session.pipe, rfl, ?_⟩
      have hsize : b.sizeAt t'.boxData = some box.boxSize := by rw [Broker.sizeAt, hbox]; rfl
      simp only [workerLeft, Broker.setPhase_self, hphase, hsize, Option.some.injEq, if_neg hne]
      change (3 * sizeofMessage + 1 + if b.sizeAt t'.boxData = some box.boxSize then 0 else _) + _ < _
      rw [if_pos hsize]
      omega
  | @send w t' last hphase =>
      obtain ⟨pipe, hsame, hlen⟩ := deliver_sends (fun e he => ⟨_, List.mem_singleton.mp he⟩) hd
      dsimp only [Sessions.Event.worker] at ht ⊢
      rw [hphase] at ht
      refine ⟨by rw [Broker.setPhase_self]; exact ht, pipe, hsame, ?_⟩
      rw [hlen]
      simp only [workerLeft, Broker.setPhase_self, hphase]
      change (if b.sizeAt t'.boxData = some last then 0 else _) + 3 * (_ + sizeofMessage * 1) < _
      omega
  | sendFailed => exact absurd rfl hw
  | _ => cases hloop

/-! ## Steps of the two -/

/-- A step of the subscriber leaves less to do. -/
theorem Attached.subscriber_step {r : Subscriber.ProcessEvent} (h : Attached w t s) (hm : Meeting s)
    (hr : ofSubscriber r = true) (hsignal : r ≠ .sigint ∧ r ≠ .interrupted)
    (hq : Subscriber.ProcessStep (s.subscriber (s.client w)) r q)
    (hs' : s' = { s with subscriber := Function.update s.subscriber (s.client w) q }) :
    Attached w t s' ∧ s'.client w = s.client w ∧ left s' w < left s w := by
  obtain ⟨htest, hexit, hended, hkilled, hclosed, hleft⟩ := client_step h.test h.exit h.ended
    (fun hclosed => by cases (h.open hm).symm.trans hclosed) hr hsignal hq
  have hsame : s'.client w = s.client w := by rw [hs', Network.client, Network.client]
  have hself : s'.subscriber (s'.client w) = q := by
    rw [hsame, hs']
    exact Function.update_self _ _ _
  have hb' : s'.broker = s.broker := by rw [hs']
  refine ⟨⟨?_, ?_, ?_, ?_, ?_, ?_, ?_, ?_⟩, hsame, ?_⟩
  · rw [hb']
    exact h.phase
  · rw [hself]
    exact htest
  · rw [hself]
    exact hexit
  · rw [hself]
    exact hended
  · rw [hself]
    exact hkilled.trans h.killed
  · rw [hself]
    exact hclosed.trans h.closed
  · rw [hsame, hs']
    exact h.through
  · rw [hs']
    exact h.broker
  · rw [left, left, hself, hb']
    exact Nat.add_lt_add_left hleft _

/-- A step of the worker leaves less to do, too. -/
theorem Attached.worker_step (h : Attached e.worker t s) (hable : Able s e) (hb : Sessions.Step s.broker e b)
    (hq : handOver (s.subscriber (s.client e.worker)) (writeEvents s.broker e) = some q)
    (hs' : s' = { s with
                  broker := b
                  taken := takenAfter s.taken e
                  publisher := Function.update s.publisher (s.client e.worker) p
                  subscriber := Function.update s.subscriber (s.client e.worker) q
                  handler := handlerAfter s e }) :
    Attached e.worker t s' ∧ s'.client e.worker = s.client e.worker ∧ left s' e.worker < left s e.worker := by
  have ho := Sessions.Step.outcome hb
  have hdeliver : deliver (s.subscriber (s.client e.worker)) (writeEvents s.broker e) = some q := by
    rw [handOver, if_neg h.alive] at hq
    exact hq
  have hwrites : e ≠ .send e.worker false := by
    intro he
    have hsends := hable.sends
    rw [he] at hsends
    exact Bool.false_ne_true (hsends.mpr h.alive)
  obtain ⟨hphase, pipe, hq', hleft⟩ := workerLeft_step ho h.phase hwrites hdeliver
  have hb' : s'.broker = b := by rw [hs']
  have hsame : s'.client e.worker = s.client e.worker :=
    client_eq (by rw [hs']) (undisturbed_of_inLoop (inLoop_of_awaiting ho h.phase) s.broker).2.2.2
  have hself : s'.subscriber (s'.client e.worker) = q := by
    rw [hsame, hs']
    exact Function.update_self _ _ _
  refine ⟨⟨?_, ?_, ?_, ?_, ?_, ?_, ?_, ?_⟩, hsame, ?_⟩
  · rw [hb']
    exact hphase
  · rw [hself, hq']
    exact h.test
  · rw [hself, hq']
    exact h.exit
  · rw [hself, hq']
    exact h.ended
  · rw [hself, hq']
    exact h.killed
  · rw [hself, hq']
    exact h.closed
  · rw [hsame, hs']
    exact h.through
  · rw [hs']
    exact h.broker
  · simp only [left, clientLeft, hself, hb', hq']
    omega

/-- A step of the two disturbs no one, and leaves less to do. -/
theorem Attached.step (h : Attached w t x.1) (hm : Meeting x.1) (hg : OfSession w x e') (hs : Step x e' x') :
    (Orderly x e' ∧ Undisturbed x.1 e') ∧ (Attached w t x'.1 ∧ x'.1.client w = x.1.client w ∧
      x'.2.since (x.1.client w) = x.2.since (x.1.client w)) ∧ left x'.1 w < left x.1 w := by
  cases hs.outcome with
  | publisher | opens | leaves => exact hg.elim
  | meets hopens =>
      obtain rfl : _ = w := hg
      cases (opens_of_awaiting h.phase).symm.trans hopens
  | sigpipe hfatal =>
      obtain rfl : _ = w := hg
      exact absurd hfatal h.not_fatal
  | @subscriber c r q hr hq =>
      obtain ⟨rfl, hsignal⟩ := hg
      obtain ⟨hattached, hsame, hleft⟩ := h.subscriber_step hm hr hsignal hq rfl
      refine ⟨⟨?_, trivial⟩, ⟨hattached, hsame, rfl⟩, hleft⟩
      cases r with
      | session r =>
          cases r with
          | read => exact fun hc => absurd hc h.test
          | _ => exact trivial
      | _ => exact trivial
  | @worker e b p q s' hable hb hp hq hs' =>
      obtain rfl : e.worker = w := hg
      have hloop := inLoop_of_awaiting hb.outcome h.phase
      obtain ⟨hclear, htaken, hread, -⟩ := undisturbed_of_inLoop hloop x.1.broker
      obtain ⟨hattached, hsame, hleft⟩ := h.worker_step hable hb hq hs'
      refine ⟨⟨⟨hclear.1, hclear.2.1, htaken, ?_⟩, hclear⟩, ⟨hattached, hsame, since_of_inLoop hloop _ _ _ _⟩, hleft⟩
      intro r hr
      rw [hread] at hr
      cases hr

/-! ## At rest -/

theorem CanStep.ofSession (h : CanStep x.1 w) : ∃ e x', OfSession w x e ∧ Step x e x' := by
  obtain ⟨s', hs⟩ | ⟨e, s', he, hs | hs⟩ := h
  · exact ⟨.meets w, (s', x.2), rfl, withRecord_eq_some.mpr ⟨hs, rfl⟩⟩
  · exact ⟨.worker e, (s', x.2.next x.1 (.worker e) s'), he, withRecord_eq_some.mpr ⟨hs, rfl⟩⟩
  · exact ⟨.sigpipe e, (s', x.2), he, withRecord_eq_some.mpr ⟨hs, rfl⟩⟩

/-- At rest the subscriber can take no step of its own. -/
theorem Attached.not_step (h : Attached w t x.1) (hrest : AtRest w x) {r : Subscriber.ProcessEvent}
    (hr : ofSubscriber r = true) (hsignal : r ≠ .sigint ∧ r ≠ .interrupted) :
    Subscriber.processStep (x.1.subscriber (x.1.client w)).1 r = none := by
  by_contra hne
  obtain ⟨p, hp⟩ := Option.ne_none_iff_exists'.mp hne
  obtain ⟨s', hs'⟩ : ∃ s', Clients.step x.1 (.subscriber (x.1.client w) r) = some s' := by
    simp only [Clients.step, h.broker, hr, h.through, and_self, ↓reduceIte, withRecord, hp, Option.map_some]
    exact ⟨_, rfl⟩
  exact hrest (.subscriber (x.1.client w) r) (s', x.2) ⟨rfl, hsignal⟩ (withRecord_eq_some.mpr ⟨hs', rfl⟩)

/-- A subscriber that has read a message tests its loop or prints. -/
theorem Attached.not_printing (h : Attached w t x.1) (hrest : AtRest w x) {code : UInt8} {message : CString} :
    (x.1.subscriber (x.1.client w)).1.session.client ≠ .printing code message := by
  intro hc
  by_cases htested : (x.1.subscriber (x.1.client w)).1.tested = true
  · have hprint := h.not_step hrest (r := .session .print) rfl (by simp)
    simp [Subscriber.processStep, Subscriber.step, h.killed, htested, hc, Subscriber.Event.isWrite] at hprint
  · have henter := h.not_step hrest (r := .enter) rfl (by simp)
    simp [Subscriber.processStep, h.killed, htested, h.ended, hc] at henter

/-- At rest the worker and the subscriber wait for the next message. -/
theorem Attached.waiting (h : Attached w t x.1) (hr : Ready n x) (hw : w < n) (hrest : AtRest w x) :
    Waiting x.1 w := by
  have hstuck : ¬ CanStep x.1 w := by
    intro hcan
    obtain ⟨e, x', he, hs⟩ := hcan.ofSession
    exact hrest e x' he hs
  have hasleep : Asleep x.1.broker w := by
    by_contra hawake
    refine hstuck ((hr.canStep_iff hw).mpr ⟨h.broker, ?_, hawake, ?_, ?_⟩)
    · rintro ⟨-, ha | ha⟩ <;> cases h.through.symm.trans ha
    · rintro ⟨-, hlocks, -⟩
      cases (locksList_of_awaiting h.phase).symm.trans hlocks
    · rintro ⟨⟨t', hp | hp⟩, -⟩
      all_goals
        have hphase := h.phase
        rw [hp] at hphase
        cases hphase
  have hclient : (x.1.subscriber (x.1.client w)).1.session.client = .accepted ∨
      (x.1.subscriber (x.1.client w)).1.session.client = .reading := by
    cases hc : (x.1.subscriber (x.1.client w)).1.session.client with
    | testing => exact absurd hc h.test
    | exited => exact absurd hc h.exit
    | accepted => exact Or.inl rfl
    | reading => exact Or.inr rfl
    | printing code message => exact absurd hc (h.not_printing hrest)
  refine ⟨?_, hclient, ?_, h.ended, h.killed⟩
  · obtain ⟨t', last, box, hphase, hbox, hsize⟩ := hasleep
    refine ⟨t', last, by rw [hphase]; rfl, by rw [hphase]; rfl, ?_⟩
    rw [Broker.sizeAt, hbox, Option.map_some, hsize]
  · by_contra hne
    have hread := h.not_step hrest (r := .session .read) rfl (by simp)
    obtain hc | hc := hclient
    all_goals simp [Subscriber.processStep, Subscriber.step, h.killed, hne, hc, Subscriber.Event.isWrite] at hread

end Mbroker.Clients
