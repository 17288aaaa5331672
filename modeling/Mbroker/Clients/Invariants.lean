import Mbroker.Clients.Pipes

/-!
# From the publishers' inputs to the subscribers' outputs

What a publisher's worker has stored is what the publisher has sent, up to some point; what a subscriber was sent since
the replay was stored in its box, in that order; and what it prints was written to it.
-/

namespace Mbroker.Clients

open Mbroker.Lib Mbroker.Fs Mbroker.Protocol Mbroker.Sessions

variable {b b' : Broker} {e : Sessions.Event} {e' : Event} {s s' : Network} {r : Record} {x x' : Network × Record}
  {v w : Nat} {c : Client} {n m : CString}

/-- The probe and "test" are read alone; and no box is removed under a session, and a message is stored, whole and not
empty, when every subscriber of its box has taken the one before. -/
def Orderly (x : Network × Record) : Event → Prop
  | .worker e => NotRemoved x.1.broker e ∧ KeepsBoxes x.1.broker e ∧ TakenBefore x.1.broker e ∧
      ProbesAlone x.1.broker e (x.1.publisher (x.1.client e.worker))
  | .subscriber c e => Subscriber.TestsFirst (x.1.subscriber c) e
  | .sigpipe _ | .opens _ | .leaves _ | .meets _ | .publisher _ _ => True

instance (x : Network × Record) : DecidablePred (Orderly x)
  | .worker e => inferInstanceAs (Decidable (NotRemoved x.1.broker e ∧ KeepsBoxes x.1.broker e ∧
      TakenBefore x.1.broker e ∧ ProbesAlone x.1.broker e (x.1.publisher (x.1.client e.worker))))
  | .subscriber c e => inferInstanceAs (Decidable (Subscriber.TestsFirst (x.1.subscriber c) e))
  | .sigpipe _ | .opens _ | .leaves _ | .meets _ | .publisher _ _ => isTrue trivial

/-! ## What is recorded -/

/-- Only a `tfs_write` that stores something is logged. -/
theorem next_log (r : Record) (s : Network) (e : Sessions.Event) (s' : Network) : (r.next s (.worker e) s').log =
    r.log ++ ((stored s.broker e s'.broker).map fun y => (s.client e.worker, y.2)).toList := by
  cases e with
  | publish w =>
      simp only [Record.next]
      cases hstored : stored s.broker (.publish w) s'.broker with
      | none => exact (List.append_nil _).symm
      | some y => rfl
  | take w d => cases d <;> exact (List.append_nil _).symm
  | send w written => cases written <;> exact (List.append_nil _).symm
  | _ => exact (List.append_nil _).symm

theorem next_box (he : ∀ w d, e ≠ .take w d) : (r.next s (.worker e) s').box = r.box := by
  cases e with
  | take w d => exact absurd rfl (he w d)
  | publish w =>
      simp only [Record.next]
      split <;> rfl
  | send w written => cases written <;> rfl
  | _ => rfl

/-- The other clients have what they had. -/
theorem next_others (s' : Network) (hc : c ≠ s.client e.worker) : (r.next s (.worker e) s').seen c = r.seen c ∧
    (r.next s (.worker e) s').replayed c = r.replayed c ∧ (r.next s (.worker e) s').sent c = r.sent c := by
  cases e with
  | readBox w => exact ⟨Function.update_of_ne hc _ _, rfl, rfl⟩
  | replay w => exact ⟨rfl, Function.update_of_ne hc _ _, rfl⟩
  | send w written =>
      cases written with
      | true => exact ⟨rfl, rfl, Function.update_of_ne hc _ _⟩
      | false => exact ⟨rfl, rfl, rfl⟩
  | publish w =>
      simp only [Record.next]
      split <;> exact ⟨rfl, rfl, rfl⟩
  | take w d => cases d <;> exact ⟨rfl, rfl, rfl⟩
  | _ => exact ⟨rfl, rfl, rfl⟩

/-- A subscriber has seen what it had, or, at its first `tfs_read`, all that is stored. -/
theorem next_seen (r : Record) (s : Network) (e : Sessions.Event) (s' : Network) (c : Client) :
    (r.next s (.worker e) s').seen c = r.seen c ∨
    (r.next s (.worker e) s').seen c = r.log.length := by
  cases e with
  | readBox w =>
      by_cases hc : c = s.client w
      · subst hc
        exact Or.inr (Function.update_self _ _ _)
      · exact Or.inl (Function.update_of_ne hc _ _)
  | publish w =>
      simp only [Record.next]
      split <;> exact Or.inl rfl
  | send w written => cases written <;> exact Or.inl rfl
  | take w d => cases d <;> exact Or.inl rfl
  | _ => exact Or.inl rfl

/-! ## The boxes of the clients -/

/-- The box name of a publisher's or subscriber's request. -/
def target : Phase → Option CString
  | .pub n | .pubOpened n _ | .pubFound n _ _ | .sub n | .subFound n _ | .subOpened n _ _ => some n
  | .pubAccepted s | .pubTesting s | .pubReading s | .pubWriting s _ | .pubEnding s
  | .subAccepted s | .subCounted s | .subRead s | .subReplayed s | .subWaiting s _ | .subSending s _
  | .subEnding s => some s.newBoxName
  | _ => none

theorem target_start {d : Dispatch.Decoded} (hn : target (.start d) = some n) :
    ∃ q, d = .request q ∧ n = newBoxName q.boxName := by
  cases d with
  | request q =>
      refine ⟨q, rfl, ?_⟩
      simp only [Phase.start] at hn
      split at hn
      · cases hn
        rfl
      · split at hn
        · cases hn
          rfl
        · repeat' split at hn
          all_goals cases hn
  | listing path | unknown code => cases hn

/-- A worker keeps the box name until it takes the next request. -/
theorem target_keep (ho : Sessions.Outcome b e b') (he : ∀ w d, e ≠ .take w d) :
    ∀ v n, target (b'.phase v) = some n → target (b.phase v) = some n := by
  refine ho.field_keep fun hm n hn => ?_
  cases hm with
  | take => exact absurd rfl (he _ _)
  | _ => first | exact hn | cases hn

/-- What the record says of the clients' requests is so, and it knows only clients that have come. -/
structure Known (x : Network × Record) : Prop where
  named : ∀ w n, target (x.1.broker.phase w) = some n → x.2.box (x.1.client w) = n
  come : ∀ a ∈ x.2.log, a.1.2 ≤ x.1.taken a.1.1
  seen : ∀ c, x.2.seen c ≤ x.2.log.length

theorem Network.Started.known {input : Client → List UInt8} (h : s.Started input) : Known (s, .empty) where
  named := fun w n hn => by
    simp only [h.broker.phase w] at hn
    cases hn
  come := nofun
  seen := fun _ => Nat.le_refl _

theorem client_ne (s s' : Network) (h : v ≠ w) : s.client v ≠ s'.client w := fun he => h (congrArg Prod.fst he)

/-- Only a worker that takes a request gets another client. -/
theorem client_eq (ht : s'.taken = takenAfter s.taken e) (he : ∀ w d, e ≠ .take w d) : s'.client v = s.client v := by
  rw [Network.client, ht]
  cases e with
  | take w d => exact absurd rfl (he w d)
  | _ => rfl

theorem client_others (ht : s'.taken = takenAfter s.taken e) (hv : v ≠ e.worker) : s'.client v = s.client v := by
  rw [Network.client, ht]
  cases e with
  | take w d => exact congrArg (Prod.mk v) (Function.update_of_ne hv _ _)
  | _ => rfl

theorem client_take {d : Dispatch.Decoded} (ht : s'.taken = takenAfter s.taken (.take w d)) :
    s'.client w = (w, s.taken w + 1) := by
  rw [Network.client, ht, takenAfter, Function.update_self]

theorem le_takenAfter (taken : Nat → Nat) (e : Sessions.Event) (v : Nat) : taken v ≤ takenAfter taken e v := by
  cases e with
  | take w d =>
      simp only [takenAfter]
      by_cases hv : v = w
      · subst hv
        rw [Function.update_self]
        exact Nat.le_succ _
      · rw [Function.update_of_ne hv]
  | _ => exact Nat.le_refl _

theorem Known.step (h : Known x) (ho : Outcome x e' x') : Known x' := by
  cases ho with
  | sigpipe | opens | leaves | meets | publisher | subscriber => exact ⟨h.named, h.come, h.seen⟩
  | @worker e b p q s' hable hb hp hq hs' =>
      have ho := Sessions.Step.outcome hb
      have hlog := next_log x.2 x.1 e s'
      have hb' : s'.broker = b := by rw [hs']
      have ht' : s'.taken = takenAfter x.1.taken e := by rw [hs']
      refine ⟨?_, ?_, ?_⟩
      · by_cases htake : ∃ w d, e = .take w d
        · obtain ⟨w, d, rfl⟩ := htake
          intro v n hn
          simp only [hb'] at hn
          by_cases hvw : v = w
          · subst hvw
            cases ho with
            | take =>
                rw [Broker.setPhase_self] at hn
                obtain ⟨q, rfl, rfl⟩ := target_start hn
                exact Function.update_self _ _ _
          · rw [(ho.others hvw).1] at hn
            simp only [client_others ht' hvw]
            have hold := h.named v n hn
            cases d with
            | request q => exact (Function.update_of_ne (client_ne _ _ hvw) _ _).trans hold
            | listing | unknown => exact hold
        · have he : ∀ w d, e ≠ .take w d := fun w d h => htake ⟨w, d, h⟩
          intro v n hn
          simp only [hb'] at hn
          simp only [next_box he, client_eq ht' he]
          exact h.named v n (target_keep ho he v n hn)
      · intro a ha
        rw [hlog] at ha
        simp only [ht']
        rcases List.mem_append.mp ha with ha | ha
        · exact (h.come a ha).trans (le_takenAfter _ _ _)
        · obtain ⟨y, -, rfl⟩ := Option.map_eq_some_iff.mp (Option.mem_toList.mp ha)
          exact le_takenAfter _ _ _
      · intro c
        rw [hlog, List.length_append]
        have hle := h.seen c
        obtain hc | hc := next_seen x.2 x.1 e s' c
        · rw [hc]
          exact Nat.le_add_right_of_le hle
        · rw [hc]
          exact Nat.le_add_right _ _

/-! ## Publishers -/

/-- What a publisher's worker has stored is what it took from the pipe, unless the box filled up. -/
structure Publishing (input : Client → List UInt8) (x : Network × Record) : Prop where
  inputs : ∀ c, Publisher.InputInv (input c) (x.1.publisher c)
  writing : ∀ w m, (x.1.broker.phase w).message = some m →
    (x.1.publisher (x.1.client w)).1.session.worker = .writing m
  kept : ∀ c, x.2.storedBy c <+: (x.1.publisher c).2.passed
  all : ∀ c, (x.1.publisher c).2.full = false → x.2.storedBy c = (x.1.publisher c).2.passed

theorem Network.Started.publishing {input : Client → List UInt8} (h : s.Started input) :
    Publishing input (s, .empty) where
  inputs := fun c => by
    obtain ⟨haccepted, hlog⟩ := h.publisher c
    have hpair : s.publisher c = ((s.publisher c).1, .empty) := Prod.ext rfl hlog
    simp only
    rw [hpair]
    exact haccepted.inputInv
  writing := fun w m hm => by
    simp only [h.broker.phase w] at hm
    cases hm
  kept := fun _ => List.nil_prefix
  all := fun c _ => by
    simp only [(h.publisher c).2]
    rfl

/-- A message to write comes from a read. -/
theorem message_read (ho : Sessions.Outcome b e b') (hm : (b'.phase v).message = some m) :
    v ≠ e.worker ∧ (b.phase v).message = some m ∨ e = .readMessage v m := by
  cases ho with
  | @readMessage w t message hw =>
      by_cases hvw : v = w
      · subst hvw
        rw [Broker.setPhase_self] at hm
        cases hm
        exact Or.inr rfl
      · rw [Broker.setPhase_ne _ _ hvw] at hm
        exact Or.inl ⟨hvw, hm⟩
  | take => exact Or.inl (setPhase_none rfl (Phase.start_message _) hm)
  | openCreate | tfsUnlink => exact Or.inl (setPhase_none rfl (by split <;> rfl) hm)
  | _ => exact Or.inl (setPhase_none rfl rfl hm)

/-- A worker stores what it took from the pipe, and takes nothing more when the box has filled up. -/
theorem stored_passed {p p' : Publisher.Process × Publisher.Log} (ho : Sessions.Outcome b e b')
    (hwriting : ∀ m, (b.phase e.worker).message = some m → p.1.session.worker = .writing m)
    (hr : receive b e p = some p') :
    (∃ t m, stored b e b' = some (t, m) ∧ p.1.session.worker = .writing m ∧
      p'.2.passed = p.2.passed ++ [m] ∧ p'.2.full = p.2.full) ∨
    stored b e b' = none ∧ p.2.passed <+: p'.2.passed ∧
      (p'.2.full = false → p.2.full = false ∧ p'.2.passed = p.2.passed) := by
  obtain ⟨hnone, rfl⟩ | ⟨r, hr, hs, -⟩ := receive_eq_some hr
  · refine Or.inr ⟨?_, List.prefix_rfl, fun hf => ⟨hf, rfl⟩⟩
    cases ho with
    | publish => cases hnone
    | publishFull => cases hnone
    | _ => rfl
  · obtain ⟨n, message, rfl, hw, hpassed, hfull⟩ | ⟨hne, hpassed, hfull⟩ := passed_of_worker hs
    · cases ho with
      | @publish w t m box k fs hphase hbox hlock hwrite hk =>
          have hn : n = k := by
            simp only [readEvent, bytesWritten, hphase, hwrite, Option.some.injEq, Publisher.Event.write.injEq] at hr
            exact hr.symm
          have hm : message = m := by
            have hm := hwriting m (congrArg Phase.message hphase)
            rw [hw] at hm
            cases hm
            rfl
          subst hm
          refine Or.inl ⟨t, message, stored_publish hphase, hw, hpassed, ?_⟩
          have hpos : ¬ n ≤ 0 := by omega
          rw [hfull, decide_eq_false hpos, Bool.or_false]
      | @publishFull w t m box k fs hphase hbox hlock hwrite hk =>
          have hn : n = k := by
            simp only [readEvent, bytesWritten, hphase, hwrite, Option.some.injEq, Publisher.Event.write.injEq] at hr
            exact hr.symm
          refine Or.inr ⟨stored_publishFull hphase, hpassed ▸ List.prefix_append _ _, fun hf => ?_⟩
          have hle : n ≤ 0 := by omega
          rw [hfull, decide_eq_true hle, Bool.or_true] at hf
          cases hf
      | readProbe =>
          simp only [readEvent, Option.some.injEq] at hr
          split at hr <;> cases hr
      | _ => cases hr
    · refine Or.inr ⟨?_, hpassed ▸ List.prefix_rfl, fun hf => ⟨hfull ▸ hf, hpassed⟩⟩
      cases ho with
      | publish => cases hr; exact absurd rfl (hne _)
      | publishFull hphase => exact stored_publishFull hphase
      | _ => rfl

/-- What a publisher itself does passes nothing on. -/
theorem Publishing.publisher {input : Client → List UInt8} {p : Publisher.Process × Publisher.Log}
    {r : Publisher.ProcessEvent} (h : Publishing input x) (hr : ofPublisher r = true)
    (hp : Publisher.ProcessStep (x.1.publisher c) r p) :
    Publishing input ({ x.1 with publisher := Function.update x.1.publisher c p }, x.2) := by
  obtain ⟨hpassed, hfull, hworker⟩ := passed_of_publisher hr hp
  have hsame : ∀ c', (Function.update x.1.publisher c p c').2.passed = (x.1.publisher c').2.passed ∧
      (Function.update x.1.publisher c p c').2.full = (x.1.publisher c').2.full ∧
      (Function.update x.1.publisher c p c').1.session.worker = (x.1.publisher c').1.session.worker := by
    intro c'
    by_cases hc : c' = c
    · rw [hc, Function.update_self]
      exact ⟨hpassed, hfull, hworker⟩
    · rw [Function.update_of_ne hc]
      exact ⟨rfl, rfl, rfl⟩
  refine ⟨fun c' => ?_, fun w m hm => (hsame _).2.2.trans (h.writing w m hm), fun c' => ?_, fun c' hf => ?_⟩
  · by_cases hc : c' = c
    · subst hc
      simp only [Function.update_self]
      refine (h.inputs c').step ?_ hp
      cases r with
      | worker => cases hr
      | _ => trivial
    · simp only [Function.update_of_ne hc]
      exact h.inputs c'
  · rw [(hsame c').1]
    exact h.kept c'
  · rw [(hsame c').1]
    exact h.all c' ((hsame c').2.1.symm.trans hf)

/-- What a worker stores comes from its client. -/
theorem storedBy_next (s' : Network) : (x.2.next x.1 (.worker e) s').storedBy (x.1.client e.worker) =
      x.2.storedBy (x.1.client e.worker) ++ ((stored x.1.broker e s'.broker).map Prod.snd).toList ∧
    ∀ c, c ≠ x.1.client e.worker → (x.2.next x.1 (.worker e) s').storedBy c = x.2.storedBy c := by
  simp only [Record.storedBy, next_log x.2 x.1 e s', List.filter_append, List.map_append]
  refine ⟨?_, fun c hc => ?_⟩
  · cases stored x.1.broker e s'.broker <;> simp
  · cases stored x.1.broker e s'.broker with
    | none => exact List.append_nil _
    | some y => simp [Ne.symm hc]

/-- What a worker writes is the message that its publisher's pipe gave it. -/
theorem Publishing.writing_step {input : Client → List UInt8} {p : Publisher.Process × Publisher.Log} {m : CString}
    (h : Publishing input x) (ho : Sessions.Outcome x.1.broker e b')
    (hp : receive x.1.broker e (x.1.publisher (x.1.client e.worker)) = some p)
    (hp' : s'.publisher = Function.update x.1.publisher (x.1.client e.worker) p)
    (ht : s'.taken = takenAfter x.1.taken e) (hm : (b'.phase v).message = some m) :
    (s'.publisher (s'.client v)).1.session.worker = .writing m := by
  obtain ⟨hv, hm⟩ | rfl := message_read ho hm
  · rw [hp', client_others ht hv, Function.update_of_ne (client_ne _ _ hv)]
    exact h.writing v m hm
  · have hclient : s'.client v = x.1.client v := client_eq ht (fun _ _ he => by cases he)
    obtain ⟨hnone, -⟩ | ⟨-, -, -, hreceived⟩ := receive_eq_some hp
    · cases hnone
    · have hself : s'.publisher (x.1.client v) = p := by
        rw [hp']
        exact Function.update_self _ _ _
      have hworker : p.1.session.worker = .writing m := hreceived
      simp only [hclient, hself, hworker]

theorem Publishing.step {input : Client → List UInt8} (h : Publishing input x) (hg : Orderly x e')
    (ho : Outcome x e' x') : Publishing input x' := by
  cases ho with
  | sigpipe | opens | leaves | meets | subscriber => exact ⟨h.inputs, h.writing, h.kept, h.all⟩
  | publisher hr hp => exact h.publisher hr hp
  | @worker e b p q s' hable hb hp hq hs' =>
      have ho := Sessions.Step.outcome hb
      obtain ⟨-, -, -, hprobe⟩ := hg
      have hp' : s'.publisher = Function.update x.1.publisher (x.1.client e.worker) p := by rw [hs']
      have hb' : s'.broker = b := by rw [hs']
      have ht' : s'.taken = takenAfter x.1.taken e := by rw [hs']
      obtain ⟨hself, hothers⟩ := storedBy_next (x := x) (e := e) s'
      rw [hb'] at hself
      have hpassing := stored_passed ho (h.writing e.worker) hp
      refine ⟨fun c => ?_, fun v m hm => h.writing_step ho hp hp' ht' (hb' ▸ hm), fun c => ?_, fun c hf => ?_⟩
      · simp only [hp']
        by_cases hc : c = x.1.client e.worker
        · subst hc
          rw [Function.update_self]
          exact receive_inputInv (h.inputs _) hprobe hp
        · rw [Function.update_of_ne hc]
          exact h.inputs c
      · simp only [hp']
        by_cases hc : c = x.1.client e.worker
        · subst hc
          rw [Function.update_self, hself]
          obtain ⟨t, m, hsome, hw, hpassed, -⟩ | ⟨hnone, hpre, -⟩ := hpassing
          · have hfull : (x.1.publisher (x.1.client e.worker)).2.full = false :=
              (h.inputs _).session.room (by rw [hw]; nofun)
            rw [hsome, hpassed, h.all _ hfull]
            exact List.prefix_rfl
          · rw [hnone, Option.map_none, Option.toList_none, List.append_nil]
            exact (h.kept _).trans hpre
        · rw [Function.update_of_ne hc, hothers c hc]
          exact h.kept c
      · simp only [hp'] at hf ⊢
        by_cases hc : c = x.1.client e.worker
        · subst hc
          rw [Function.update_self] at hf ⊢
          rw [hself]
          obtain ⟨t, m, hsome, -, hpassed, hfull⟩ | ⟨hnone, -, hpassed⟩ := hpassing
          · rw [hsome, hpassed, h.all _ (hfull ▸ hf)]
            rfl
          · obtain ⟨hfull, hsame⟩ := hpassed hf
            rw [hnone, hsame, h.all _ hfull]
            exact List.append_nil _
        · rw [Function.update_of_ne hc] at hf ⊢
          rw [hothers c hc]
          exact h.all c hf

/-! ## Subscribers -/

/-- The worker has not sent its subscriber a message. -/
def unsent : Phase → Bool
  | .subReplayed _ | .subWaiting _ _ | .subSending _ _ | .subEnding _ | .idle => false
  | _ => true

theorem unsent_of_step (ho : Sessions.Outcome b e b') (he : ∀ w d, e ≠ .take w d)
    (h : unsent (b'.phase e.worker) = true) : unsent (b.phase e.worker) = true := by
  have hback : ∀ {old phase}, Moves b old e phase → unsent phase = true → unsent old = true := by
    intro old phase hm hphase
    cases hm with
    | take => exact absurd rfl (he _ _)
    | _ => first | rfl | cases hphase
  exact hback ho.moves_self h

/-- What is written to a subscriber is what was sent, until it is no more. -/
structure Handed (q : Subscriber.Process × List CString) (sent : List CString) : Prop where
  printing : Subscriber.Printing q
  written : q.2 <+: sent
  all : ¬ Gone q.1 → q.2 = sent

/-- Every subscriber is handed what its worker has sent. -/
structure Handing (x : Network × Record) : Prop where
  handed : ∀ c, Handed (x.1.subscriber c) (x.2.replayed c ++ x.2.sent c)
  unsent : ∀ w, Clients.unsent (x.1.broker.phase w) = true →
    x.2.replayed (x.1.client w) = [] ∧ x.2.sent (x.1.client w) = []
  fresh : ∀ w n, x.1.taken w < n → x.2.replayed (w, n) = [] ∧ x.2.sent (w, n) = []

theorem Network.Started.handing {input : Client → List UInt8} (h : s.Started input) : Handing (s, .empty) where
  handed := fun c => by
    obtain ⟨t, ht, hq⟩ := h.subscriber c
    simp only [hq]
    exact ⟨ht.inStep.printing, List.nil_prefix, fun _ => rfl⟩
  unsent := fun _ _ => ⟨rfl, rfl⟩
  fresh := fun _ _ _ => ⟨rfl, rfl⟩

/-- What a worker sends to its subscriber, and what is recorded of it. -/
theorem sent_of_step (s' : Network) (ho : Sessions.Outcome x.1.broker e b') :
    ((x.2.next x.1 (.worker e) s').replayed (x.1.client e.worker) = x.2.replayed (x.1.client e.worker) ∧
      (x.2.next x.1 (.worker e) s').sent (x.1.client e.worker) = x.2.sent (x.1.client e.worker) ++
        (writeEvents x.1.broker e).filterMap textOf) ∨
    unsent (x.1.broker.phase e.worker) = true ∧
      (x.2.next x.1 (.worker e) s').replayed (x.1.client e.worker) = (writeEvents x.1.broker e).filterMap textOf ∧
      (x.2.next x.1 (.worker e) s').sent (x.1.client e.worker) = x.2.sent (x.1.client e.worker) := by
  cases ho with
  | @replay w t hw =>
      refine Or.inr ⟨by dsimp only [Sessions.Event.worker]; rw [hw]; rfl, ?_, rfl⟩
      rw [writeEvents, (sendEvents_ofWorker (replay_fits _)).2]
      exact Function.update_self _ _ _
  | send => exact Or.inl ⟨rfl, Function.update_self _ _ _⟩
  | publishFull | publish =>
      refine Or.inl ?_
      simp only [Record.next]
      split <;> exact ⟨rfl, (List.append_nil _).symm⟩
  | @take w d =>
      cases d <;> exact Or.inl ⟨rfl, (List.append_nil _).symm⟩
  | _ => exact Or.inl ⟨rfl, (List.append_nil _).symm⟩

theorem texts_of_unsent (ho : Sessions.Outcome b e b') (h : unsent (b'.phase e.worker) = true) :
    (writeEvents b e).filterMap textOf = [] := by
  cases ho with
  | replay | send =>
      dsimp only [Sessions.Event.worker] at h
      rw [Broker.setPhase_self] at h
      cases h
  | _ => rfl

/-- What a subscriber itself does changes nothing of what was written to it. -/
theorem Handing.subscriber {q : Subscriber.Process × List CString} {r : Subscriber.ProcessEvent} (h : Handing x)
    (hg : Subscriber.TestsFirst (x.1.subscriber c) r) (hr : ofSubscriber r = true)
    (hq : Subscriber.ProcessStep (x.1.subscriber c) r q) :
    Handing ({ x.1 with subscriber := Function.update x.1.subscriber c q }, x.2) := by
  obtain ⟨hgone, hsame⟩ := written_of_subscriber (h.handed c).printing hr hq
  have hq' : Handed q (x.2.replayed c ++ x.2.sent c) :=
    ⟨(h.handed c).printing.step hg hq.outcome, hsame ▸ (h.handed c).written,
      fun _ => hsame.trans ((h.handed c).all hgone)⟩
  exact ⟨(Function.forall_update_iff _ fun c q => Handed q (x.2.replayed c ++ x.2.sent c)).mpr
    ⟨hq', fun c' _ => h.handed c'⟩, h.unsent, h.fresh⟩

/-- What a worker writes to its subscriber is recorded as sent. -/
theorem Handing.handed_step {q : Subscriber.Process × List CString} (h : Handing x) (s' : Network)
    (ho : Sessions.Outcome x.1.broker e b')
    (hq : handOver (x.1.subscriber (x.1.client e.worker)) (writeEvents x.1.broker e) = some q) :
    Handed q ((x.2.next x.1 (.worker e) s').replayed (x.1.client e.worker) ++
      (x.2.next x.1 (.worker e) s').sent (x.1.client e.worker)) := by
  have hold := h.handed (x.1.client e.worker)
  obtain ⟨hprinting, hhand⟩ := handOver_eq_some (writeEvents_ofWorker _ _) hold.printing hq
  obtain ⟨hr, hs⟩ | ⟨hphase, hr, hs⟩ := sent_of_step s' ho
  · rw [hr, hs, ← List.append_assoc]
    obtain ⟨hgone, rfl⟩ | ⟨hgone, -, htexts⟩ := hhand
    · exact ⟨hprinting, hold.written.trans (List.prefix_append _ _), fun hn => absurd hgone hn⟩
    · rw [hold.all hgone] at htexts
      exact ⟨hprinting, htexts ▸ List.prefix_rfl, fun _ => htexts⟩
  · obtain ⟨hnone, hnone'⟩ := h.unsent _ hphase
    have hempty := hold.written
    rw [hnone, hnone', List.append_nil, List.prefix_nil] at hempty
    rw [hr, hs, hnone', List.append_nil]
    obtain ⟨hgone, rfl⟩ | ⟨hgone, -, htexts⟩ := hhand
    · exact ⟨hprinting, hempty ▸ List.nil_prefix, fun hn => absurd hgone hn⟩
    · rw [hempty] at htexts
      exact ⟨hprinting, htexts ▸ List.prefix_rfl, fun _ => htexts⟩

/-- A worker that has just taken a request, or has not begun to send, has sent its subscriber nothing. -/
theorem Handing.unsent_step (h : Handing x) (ho : Sessions.Outcome x.1.broker e b')
    (ht : s'.taken = takenAfter x.1.taken e) (hv : Clients.unsent (b'.phase v) = true) :
    (x.2.next x.1 (.worker e) s').replayed (s'.client v) = [] ∧
      (x.2.next x.1 (.worker e) s').sent (s'.client v) = [] := by
  by_cases hvw : v = e.worker
  · subst hvw
    by_cases htake : ∃ w d, e = .take w d
    · obtain ⟨w, d, rfl⟩ := htake
      have hclient := client_take ht
      have hc : s'.client w ≠ x.1.client w := by
        rw [hclient]
        exact fun hc => Nat.succ_ne_self _ (congrArg Prod.snd hc)
      obtain ⟨-, hr, hs⟩ := next_others (r := x.2) (s := x.1) (e := .take w d) s' hc
      simp only [Sessions.Event.worker, hr, hs]
      rw [hclient]
      exact h.fresh w _ (Nat.lt_succ_self _)
    · have he : ∀ w d, e ≠ .take w d := fun w d h => htake ⟨w, d, h⟩
      obtain ⟨hnone, hnone'⟩ := h.unsent _ (unsent_of_step ho he hv)
      have htexts := texts_of_unsent ho hv
      rw [client_eq ht he]
      obtain ⟨hr, hs⟩ | ⟨-, hr, hs⟩ := sent_of_step s' ho
      · rw [hr, hs, hnone, hnone', htexts]
        exact ⟨rfl, rfl⟩
      · rw [hr, hs, hnone', htexts]
        exact ⟨rfl, rfl⟩
  · obtain ⟨-, hr, hs⟩ := next_others (r := x.2) (s := x.1) (e := e) s' (client_ne x.1 x.1 hvw)
    rw [(ho.others hvw).1] at hv
    rw [client_others ht hvw, hr, hs]
    exact h.unsent v hv

theorem Handing.fresh_step (h : Handing x) (ht : s'.taken = takenAfter x.1.taken e) {n : Nat} (hn : s'.taken v < n) :
    (x.2.next x.1 (.worker e) s').replayed (v, n) = [] ∧ (x.2.next x.1 (.worker e) s').sent (v, n) = [] := by
  have hlt : x.1.taken v < n := by
    rw [ht] at hn
    exact (le_takenAfter _ _ _).trans_lt hn
  have hc : (v, n) ≠ x.1.client e.worker := by
    intro hc
    obtain ⟨rfl, rfl⟩ := Prod.ext_iff.mp hc
    exact lt_irrefl _ hlt
  obtain ⟨-, hr, hs⟩ := next_others (r := x.2) s' hc
  rw [hr, hs]
  exact h.fresh v n hlt

theorem Handing.step (h : Handing x) (hg : Orderly x e') (ho : Outcome x e' x') : Handing x' := by
  cases ho with
  | sigpipe | opens | leaves | meets | publisher => exact ⟨h.handed, h.unsent, h.fresh⟩
  | subscriber hr hq => exact h.subscriber hg hr hq
  | @worker e b p q s' hable hb hp hq hs' =>
      have ho := Sessions.Step.outcome hb
      have hsub : s'.subscriber = Function.update x.1.subscriber (x.1.client e.worker) q := by rw [hs']
      have hb' : s'.broker = b := by rw [hs']
      have ht' : s'.taken = takenAfter x.1.taken e := by rw [hs']
      refine ⟨?_, fun v hv => ?_, fun v n hn => h.fresh_step ht' hn⟩
      · simp only [hsub]
        refine (Function.forall_update_iff _ fun c q => Handed q (_ ++ _)).mpr
          ⟨h.handed_step s' ho hq, fun c hc => ?_⟩
        obtain ⟨-, hr, hs⟩ := next_others (r := x.2) s' hc
        rw [hr, hs]
        exact h.handed c
      · simp only [hb'] at hv
        exact h.unsent_step ho ht' hv

/-! ## What subscribers are sent -/

/-- A subscriber was sent what was stored in its box since its first `tfs_read`, up to some point. -/
structure Feeding (x : Network × Record) : Prop where
  fed : ∃ f L a, Delivering (x.1.broker, f) L a ∧ ∀ v t, (x.1.broker.phase v).following = some t →
    x.2.sent (x.1.client v) = f.sent v ∧ x.2.since (x.1.client v) = f.stored v
  ahead : ∀ c, x.2.sent c <+: x.2.since c

theorem Network.Started.feeding {input : Client → List UInt8} (h : s.Started input) : Feeding (s, .empty) where
  fed := ⟨_, _, _, h.broker.delivering, fun v t hv => by
    simp only [h.broker.phase v] at hv
    cases hv⟩
  ahead := fun _ => List.nil_prefix

theorem target_of_following {p : Phase} {t : Session} (h : p.following = some t) : target p = some t.newBoxName := by
  cases p with
  | subRead | subReplayed | subWaiting | subSending | subEnding =>
      cases h
      rfl
  | _ => cases h

/-- A session begins to follow its box with its first `tfs_read`. -/
theorem following_of_step (ho : Sessions.Outcome b e b') {t : Session} (h : (b'.phase v).following = some t) :
    (b.phase v).following = some t ∨ e = .readBox v ∧ b.phase v = .subCounted t := by
  have hfrom : ∀ {old phase}, Moves b old e phase → phase.following = some t →
      old.following = some t ∨ e = .readBox e.worker ∧ old = .subCounted t := by
    intro old phase hm hf
    cases hm with
    | take =>
        rw [Phase.following_eq_none (Phase.start_opened _)] at hf
        cases hf
    | readBox =>
        cases hf
        exact Or.inr ⟨rfl, rfl⟩
    | _ => first | exact Or.inl hf | cases hf
  by_cases hv : v = e.worker
  · rw [hv] at h ⊢
    exact hfrom ho.moves_self h
  · rw [(ho.others hv).1] at h
    exact Or.inl h

/-- What a step stores comes behind what was stored since, for the subscribers of the box. -/
theorem since_next (h : Known x) (he : ∀ w d, e ≠ .take w d)
    (hc : (x.2.next x.1 (.worker e) s').seen c = x.2.seen c) :
    (x.2.next x.1 (.worker e) s').since c = x.2.since c ++
      (stored x.1.broker e s'.broker).elim [] fun y =>
        if x.2.box (x.1.client e.worker) = x.2.box c then [y.2] else [] := by
  have hlog := next_log x.2 x.1 e s'
  simp only [Record.since, hlog, hc, next_box he, List.drop_append_of_le_length (h.seen c), List.filter_append,
    List.map_append, List.append_cancel_left_eq]
  cases stored x.1.broker e s'.broker with
  | none => rfl
  | some y =>
      by_cases hbox : x.2.box (x.1.client e.worker) = x.2.box c
      · simp [hbox]
      · simp [hbox]

/-- A request that is taken changes nothing for the clients that were there. -/
theorem since_take {d : Dispatch.Decoded} (h : Known x) (hs : s'.client w = (w, x.1.taken w + 1))
    (hc : c ≠ s'.client w) :
    (x.2.next x.1 (.worker (.take w d)) s').since c = x.2.since c := by
  cases d with
  | listing | unknown => rfl
  | request q =>
      have hlog : ∀ a ∈ x.2.log, a.1 ≠ s'.client w := by
        intro a ha hca
        have hle := h.come a ha
        rw [hca, hs] at hle
        exact Nat.not_succ_le_self _ hle
      have hbox : ∀ c, c ≠ s'.client w → (x.2.next x.1 (.worker (.take w (.request q))) s').box c = x.2.box c :=
        fun c hc => Function.update_of_ne hc _ _
      unfold Record.since
      rw [hbox c hc]
      refine congrArg (List.map Prod.snd) (List.filter_congr fun a ha => ?_)
      rw [hbox a.1 (hlog a (List.mem_of_mem_drop ha))]

/-- The feed of a subscriber that has followed its box is the record's. -/
theorem Feeding.follows {f : Feed} {t : Session} (hk : Known x) (hh : Handing x)
    (hf : ∀ v t, (x.1.broker.phase v).following = some t →
      x.2.sent (x.1.client v) = f.sent v ∧ x.2.since (x.1.client v) = f.stored v)
    (ho : Sessions.Outcome x.1.broker e b') (hb : s'.broker = b') (ht : s'.taken = takenAfter x.1.taken e)
    (hv : (b'.phase v).following = some t) :
    (x.2.next x.1 (.worker e) s').sent (s'.client v) = (feed f x.1.broker e b').sent v ∧
      (x.2.next x.1 (.worker e) s').since (s'.client v) = (feed f x.1.broker e b').stored v := by
  obtain hold | ⟨rfl, hphase⟩ := following_of_step ho hv
  · obtain ⟨hsent, hsince⟩ := hf v t hold
    -- All but the write of a message, a store and the taking of a request.
    have hplain : (∀ w d, e ≠ .take w d) → stored x.1.broker e b' = none →
        (x.2.next x.1 (.worker e) s').seen (x.1.client v) = x.2.seen (x.1.client v) →
        (x.2.next x.1 (.worker e) s').sent (x.1.client v) = (feed f x.1.broker e b').sent v →
        (feed f x.1.broker e b').stored v = f.stored v →
        (x.2.next x.1 (.worker e) s').sent (s'.client v) = (feed f x.1.broker e b').sent v ∧
          (x.2.next x.1 (.worker e) s').since (s'.client v) = (feed f x.1.broker e b').stored v := by
      intro he hstored hseen hsent' hstored'
      rw [client_eq ht he, since_next hk he hseen, hb, hstored, hstored', Option.elim_none, List.append_nil]
      exact ⟨hsent', hsince⟩
    cases ho with
    | @take w d hw =>
        have hvw : v ≠ w := by
          rintro rfl
          rw [hw] at hold
          cases hold
        rw [since_take hk (client_take ht) (client_ne _ _ hvw), client_others ht hvw]
        refine ⟨?_, hsince⟩
        cases d <;> exact hsent
    | @readBox w t' n data fs hw =>
        have hvw : v ≠ w := by
          rintro rfl
          rw [hw] at hold
          cases hold
        refine hplain (fun _ _ he => by cases he) rfl (next_others _ (client_ne _ _ hvw)).1 ?_ ?_
        · exact hsent.trans (Function.update_of_ne hvw _ _).symm
        · exact Function.update_of_ne hvw _ _
    | @publishFull w t' m box n fs hw =>
        have hvw : v ≠ w := by
          rintro rfl
          rw [hw] at hold
          cases hold
        obtain ⟨hseen, -, hsame⟩ := next_others (r := x.2) (e := .publish w) s' (client_ne x.1 x.1 hvw)
        have hnone : ∀ b₁ : Broker, stored x.1.broker (.publish w) (b₁.setPhase w (.pubEnding t')) = none :=
          fun _ => stored_publishFull hw
        refine hplain (fun _ _ he => by cases he) (hnone _) hseen (hsame.trans ?_) ?_
        · simp only [feed, hnone, hsent]
        · simp only [feed, hnone]
    | @publish w t' m box n fs hw =>
        have hvw : v ≠ w := by
          rintro rfl
          rw [hw] at hold
          cases hold
        obtain ⟨hseen, -, hsame⟩ := next_others (r := x.2) (e := .publish w) s' (client_ne x.1 x.1 hvw)
        have hsome : ∀ b₁ : Broker, stored x.1.broker (.publish w) (b₁.setPhase w (.pubReading t')) = some (t', m) :=
          fun _ => stored_publish hw
        have he : ∀ w' d, Sessions.Event.publish w ≠ .take w' d := fun _ _ he => by cases he
        have hbox : x.2.box (x.1.client w) = t'.newBoxName := hk.named w _ (by rw [hw]; rfl)
        have hbox' : x.2.box (x.1.client v) = t.newBoxName := hk.named v _ (target_of_following hold)
        rw [client_eq ht he, since_next hk he hseen, hb, hsome, hsame, Option.elim_some]
        simp only [feed, hsome, hold, Option.any_some, decide_eq_true_eq, hsent, hsince, true_and]
        have hiff : x.2.box (x.1.client w) = x.2.box (x.1.client v) ↔ t.newBoxName = t'.newBoxName := by
          rw [hbox, hbox', eq_comm]
        by_cases hname : t.newBoxName = t'.newBoxName
        · rw [if_pos hname]
          exact congrArg (f.stored v ++ ·) (if_pos (hiff.mpr hname))
        · rw [if_neg hname]
          exact (congrArg (f.stored v ++ ·) (if_neg (mt hiff.mp hname))).trans (List.append_nil _)
    | @send w t' last hw =>
        refine hplain (fun _ _ he => by cases he) rfl rfl ?_ rfl
        by_cases hvw : v = w
        · subst hvw
          have hself : (x.2.next x.1 (.worker (.send v true)) s').sent (x.1.client v) =
              x.2.sent (x.1.client v) ++ [firstMessage (x.1.broker.fullBoxBuffer v)] := Function.update_self _ _ _
          rw [hself, hsent]
          simp only [feed, messagesSent_write, Function.update_self]
          rfl
        · exact (next_others _ (client_ne _ _ hvw)).2.2.trans (hsent.trans (Function.update_of_ne hvw _ _).symm)
    | @sendFailed w t' last hw =>
        refine hplain (fun _ _ he => by cases he) rfl rfl (hsent.trans ?_) rfl
        by_cases hvw : v = w
        · subst hvw
          simp only [feed, messagesSent_setPhase, List.append_nil, Function.update_self]
        · exact (Function.update_of_ne hvw _ _).symm
    | _ => exact hplain (fun _ _ he => by cases he) rfl rfl hsent rfl
  · have hclient : s'.client v = x.1.client v := client_eq ht (fun _ _ he => by cases he)
    have hsent := (hh.unsent v (by rw [hphase]; rfl)).2
    have hseen : (x.2.next x.1 (.worker (.readBox v)) s').seen (x.1.client v) = x.2.log.length :=
      Function.update_self _ _ _
    have hstored : (feed f x.1.broker (.readBox v) b').stored v = [] := Function.update_self _ _ _
    have hsent' : (feed f x.1.broker (.readBox v) b').sent v = [] := Function.update_self _ _ _
    rw [hclient, hstored, hsent']
    refine ⟨hsent, ?_⟩
    rw [Record.since, hseen]
    have hlog : (x.2.next x.1 (.worker (.readBox v)) s').log = x.2.log := rfl
    rw [hlog, List.drop_length]
    rfl

theorem Feeding.step (h : Feeding x) (hk : Known x) (hh : Handing x) (hg : Orderly x e') (ho : Outcome x e' x') :
    Feeding x' := by
  cases ho with
  | sigpipe | opens | leaves | meets | publisher | subscriber => exact ⟨h.fed, h.ahead⟩
  | @worker e b p q s' hable hb hp hq hs' =>
      have ho := Sessions.Step.outcome hb
      have hb' : s'.broker = b := by rw [hs']
      have ht' : s'.taken = takenAfter x.1.taken e := by rw [hs']
      obtain ⟨f, L, a, hd, hfeed⟩ := h.fed
      obtain ⟨hremoved, hkeeps, htaken, -⟩ := hg
      obtain ⟨L', a', hd'⟩ := hd.step (e := e) ⟨hremoved, hkeeps, htaken⟩ ho
      have hfollows : ∀ v t, (b.phase v).following = some t → _ := fun v t hv =>
        Feeding.follows hk hh hfeed ho hb' ht' hv
      refine ⟨⟨feed f x.1.broker e b, L', a', ?_, ?_⟩, fun c => ?_⟩
      · simp only [hb']
        exact hd'
      · simp only [hb']
        exact hfollows
      · by_cases hc : ∃ v t, c = s'.client v ∧ (b.phase v).following = some t
        · obtain ⟨v, t, rfl, hv⟩ := hc
          obtain ⟨hsent, hsince⟩ := hfollows v t hv
          rw [hsent, hsince]
          exact ((hd'.tracks v).exact hv).1
        · have hstays : (∃ w, e = .readBox w ∨ e = .send w true) → c ≠ x.1.client e.worker := by
            rintro ⟨w, he⟩ rfl
            have hne : ∀ v d, e ≠ .take v d := by
              rintro v d rfl
              obtain he | he := he <;> cases he
            obtain rfl | rfl := he
            · cases ho with
              | readBox hw => exact hc ⟨w, _, (client_eq ht' hne).symm, by rw [Broker.setPhase_self]; rfl⟩
            · cases ho with
              | send hw => exact hc ⟨w, _, (client_eq ht' hne).symm, by rw [Broker.setPhase_self]; rfl⟩
          have hsent : (x.2.next x.1 (.worker e) s').sent c = x.2.sent c := by
            cases e with
            | send w written =>
                cases written with
                | true => exact (next_others _ (hstays ⟨w, Or.inr rfl⟩)).2.2
                | false => rfl
            | take w d => cases d <;> rfl
            | publish w =>
                simp only [Record.next]
                split <;> rfl
            | _ => rfl
          have hseen : (x.2.next x.1 (.worker e) s').seen c = x.2.seen c := by
            cases e with
            | readBox w => exact (next_others _ (hstays ⟨w, Or.inl rfl⟩)).1
            | send w written => cases written <;> rfl
            | take w d => cases d <;> rfl
            | publish w =>
                simp only [Record.next]
                split <;> rfl
            | _ => rfl
          rw [hsent]
          by_cases htake : ∃ w d, e = .take w d
          · obtain ⟨w, d, rfl⟩ := htake
            have hclient := client_take ht'
            by_cases hcw : c = s'.client w
            · rw [hcw, hclient, (hh.fresh w _ (Nat.lt_succ_self _)).2]
              exact List.nil_prefix
            · rw [since_take hk hclient hcw]
              exact h.ahead c
          · rw [since_next hk (fun w d he => htake ⟨w, d, he⟩) hseen]
            exact (h.ahead c).trans (List.prefix_append _ _)

end Mbroker.Clients
