import Mbroker.Clients.Rest
import Mbroker.Publisher.Theorems
import Mbroker.Sessions.Theorems

/-!
# From input to output

What becomes of the publishers' inputs, in any interleaving of the workers and the clients.
-/

namespace Mbroker.Clients

open Mbroker.Lib Mbroker.Fs Mbroker.Protocol Mbroker.Sessions

variable {input : Client → List UInt8} {s : Network} {es : List Event} {x : Network × Record} {c : Client} {w : Nat}

/-! ## The invariant -/

/-- All that is known of a run. -/
structure Flowing (input : Client → List UInt8) (x : Network × Record) : Prop where
  known : Known x
  publishing : Publishing input x
  handing : Handing x
  feeding : Feeding x

theorem Network.Started.flowing (h : s.Started input) : Flowing input (s, .empty) :=
  ⟨h.known, h.publishing, h.handing, h.feeding⟩

theorem Flowing.step {e : Event} {x' : Network × Record} (h : Flowing input x) (hg : Orderly x e) (hs : Step x e x') :
    Flowing input x' where
  known := h.known.step hs.outcome
  publishing := h.publishing.step hg hs.outcome
  handing := h.handing.step hg hs.outcome
  feeding := h.feeding.step h.known h.handing hg hs.outcome

theorem Flowing.steps (h : s.Started input) (hrun : Steps (Guarded Orderly Step) (s, .empty) es x) : Flowing input x :=
  hrun.invariant (fun _ _ _ hx hs => hx.step hs.1 hs.2) h.flowing

/-! ## What is under way -/

/-- The publisher has come to the end of its input, and the worker to the end of the pipe. -/
structure Finished (p : Publisher.Process × Publisher.Log) : Prop where
  closed : p.1.session.client = .closed
  ended : p.1.ended = false
  pipe : p.1.session.pipe = []
  worker : ∀ message, p.1.session.worker ≠ .writing message
  room : p.2.full = false

theorem Publishing.finished (h : Publishing input x) (hc : Finished (x.1.publisher c)) :
    x.2.storedBy c = Publisher.texts (input c) := by
  rw [h.all c hc.room]
  exact (h.inputs c).passed_eq hc.closed hc.ended hc.pipe hc.worker hc.room

theorem Flowing.waiting (h : Flowing input x) (hw : Waiting x.1 w) :
    (x.1.subscriber (x.1.client w)).1.session.texts = x.2.replayed (x.1.client w) ++ x.2.since (x.1.client w) := by
  obtain ⟨t, last, hfollow, hwait, hsize⟩ := hw.worker
  obtain ⟨f, L, a, hd, hfeed⟩ := h.feeding.fed
  have hexact := ((hd.tracks w).exact hfollow).2 last hwait hsize
  obtain ⟨hsent, hsince⟩ := hfeed w t hfollow
  have hphase : (x.1.subscriber (x.1.client w)).1.session.client ≠ .exited ∧
      (x.1.subscriber (x.1.client w)).1.session.client ≠ .testing ∧
      (x.1.subscriber (x.1.client w)).1.session.client.pending = [] := by
    obtain hc | hc := hw.client
    all_goals
      rw [hc]
      exact ⟨nofun, nofun, rfl⟩
  obtain ⟨hexit, htest, hpending⟩ := hphase
  have hgone : ¬ Gone (x.1.subscriber (x.1.client w)).1 := by
    rintro (hkilled | hgone)
    · cases hw.killed.symm.trans hkilled
    · exact hexit ((h.handing.handed _).printing.shut hgone)
  have hin := (h.handing.handed (x.1.client w)).printing.inStep hw.ended
  obtain ⟨rest, htexts, hpipe⟩ := hin.rest
  rw [Subscriber.Session.ahead_of_ne htest, hw.pipe] at hpipe
  have hrest : rest = [] := messageBytes_eq_nil.mp hpipe.symm
  rw [hpending, hrest, List.append_nil, List.append_nil] at htexts
  rw [← htexts, (h.handing.handed _).all hgone, hsent, hexact, hsince]

/-! ## From input to output -/

/-- The publisher of the worker 1 has two lines. -/
def twoLines : Client → List UInt8 := fun c =>
  if c.1 = 1 then Publisher.inputOf [ascii "one", ascii "two"] (ascii "") else []

/-- A case that begins with an `open`: the client comes to it when the worker has taken the request. -/
def opening (c : Client) : List Sessions.Event → List Event
  | [] => []
  | e :: es => [.worker e, .opens c, .meets c.1] ++ es.map .worker

/-- The second request that the worker 0 takes is a subscriber's, and both lines are stored before it has got one. -/
def twoStored : List Event :=
  opening (0, 1) (creation 0 0 (ascii "box")) ++ opening (0, 2) (subscribing 0) ++
    [.subscriber (0, 2) (.session .read)] ++
    opening (1, 1) [.take 1 (.request ⟨1, ascii "pipe", ascii "box"⟩), .tfsOpen 1, .findBox 1, .test 1,
      .setPublishers 1] ++
    [.publisher (1, 1) .test, .worker (.readProbe 1), .publisher (1, 1) .line, .worker (.readMessage 1 (ascii "one")),
      .worker (.publish 1), .worker (.wake 0), .publisher (1, 1) .line, .worker (.readMessage 1 (ascii "two")),
      .worker (.publish 1)]

def twoDelivered : List Event :=
  twoStored ++ [.worker (.send 0 true), .subscriber (0, 2) (.session .read), .subscriber (0, 2) .enter,
    .subscriber (0, 2) (.session .print), .worker (.wake 0), .publisher (1, 1) .line, .worker (.send 0 true),
    .subscriber (0, 2) (.session .read), .worker (.readEnd 1), .subscriber (0, 2) .enter,
    .subscriber (0, 2) (.session .print)]

/-- At the end the publisher is finished, and the subscriber waits. -/
def TwoPrinted (s : Network) : Prop :=
  ((s.publisher (1, 1)).1.session.client = .closed ∧ (s.publisher (1, 1)).1.ended = false ∧
    (s.publisher (1, 1)).1.session.pipe = [] ∧ (s.publisher (1, 1)).1.session.worker = .ended ∧
    (s.publisher (1, 1)).2.full = false) ∧
  ((s.broker.phase 0).following.any (fun t => (s.broker.phase 0).waitSize.any fun last =>
      s.broker.sizeAt t.boxData = some last) = true ∧
    (s.subscriber (0, 2)).1.session.client = .reading ∧ (s.subscriber (0, 2)).1.session.pipe = [] ∧
    (s.subscriber (0, 2)).1.ended = false ∧ (s.subscriber (0, 2)).1.killed = false) ∧
  s.client 0 = (0, 2) ∧ (s.subscriber (0, 2)).1.session.texts = [ascii "one", ascii "two"]

instance : DecidablePred TwoPrinted := fun s => by
  unfold TwoPrinted
  infer_instance

/-- With its client as it is, a worker can take its next step exactly if the broker is not killed and the worker neither
waits in `open` for a client that is not there, nor sleeps on a box whose size is still what it saw last, nor waits for
a worker that lists the boxes and can go on, nor reads from the pipe of a publisher that is empty and still open, in
runs in which no box is removed under a session and every message finds room. -/
theorem network_goes_on (h : s.Started input)
    (hrun : Steps (Guarded (fun x : Network × Record => Undisturbed x.1) Step) (s, .empty) es x)
    (hw : w < s.broker.numThreads) :
    CanStep x.1 w ↔ x.1.killed = false ∧ ¬ AwaitsOpen x.1 w ∧ ¬ Asleep x.1.broker w ∧ ¬ AwaitsList x.1 w ∧
      ¬ AwaitsPublisher x.1 w := by
  have hx : Ready s.broker.numThreads x :=
    hrun.invariant (fun _ _ _ hx hs => hx.step hs.1 hs.2.outcome) h.ready
  exact hx.canStep_iff hw

theorem network_goes_on_two : ∃ x, Steps (Guarded (fun x : Network × Record => Undisturbed x.1) Step)
    (.start 2 twoLines, .empty) twoDelivered x ∧
    (CanStep x.1 0 ↔ x.1.killed = false ∧ ¬ AwaitsOpen x.1 0 ∧ ¬ Asleep x.1.broker 0 ∧ ¬ AwaitsList x.1 0 ∧
      ¬ AwaitsPublisher x.1 0) := by
  obtain ⟨x, hrun, -⟩ := exists_guarded (fun x : Network × Record => Undisturbed x.1) (fun _ => True) Step.of_withRecord
    (.start 2 twoLines, .empty) twoDelivered (by decide +kernel)
  exact ⟨x, hrun, network_goes_on (Network.start_started 2 twoLines) hrun (by decide)⟩

/-- Two subscribers of one box are interrupted twice, and then one message is published. -/
def twoLeave : List Event :=
  opening (0, 1) (creation 0 0 (ascii "box")) ++ opening (0, 2) (subscribing 0) ++ opening (2, 1) (subscribing 2) ++
    [.subscriber (0, 2) .sigint, .subscriber (0, 2) .sigint, .subscriber (2, 1) .sigint, .subscriber (2, 1) .sigint] ++
    opening (1, 1) [.take 1 (.request ⟨1, ascii "pipe", ascii "box"⟩), .tfsOpen 1, .findBox 1, .test 1,
      .setPublishers 1] ++
    [.publisher (1, 1) .test, .worker (.readProbe 1), .publisher (1, 1) .line, .worker (.readMessage 1 (ascii "one")),
      .worker (.publish 1), .worker (.wake 0), .worker (.send 0 false), .worker (.wake 2), .sigpipe (.send 2 false)]

/-- `sigpipe_handler` is there for the first write that fails, and not for the second one. -/
theorem second_failure_kills : ∃ x, Steps (Guarded (fun x : Network × Record => Undisturbed x.1) Step)
    (.start 3 twoLines, .empty) twoLeave x ∧ x.1.killed = true :=
  exists_guarded (fun x : Network × Record => Undisturbed x.1) (fun x => x.1.killed = true) Step.of_withRecord
    (.start 3 twoLines, .empty) twoLeave (by decide +kernel)

/-! ## Subscribers that catch up -/

/-- What a run keeps in which the worker and its subscriber `c` are left alone after `texts` were stored. -/
structure CatchingUp (input : Client → List UInt8) (n w : Nat) (t : Session) (c : Client) (texts : List CString)
    (x : Network × Record) : Prop where
  flowing : Flowing input x
  ready : Ready n x
  attached : Attached w t x.1
  client : x.1.client w = c
  since : x.2.since c = texts

theorem CatchingUp.step {n : Nat} {t : Session} {texts : List CString} {e : Event} {x' : Network × Record}
    (h : CatchingUp input n w t c texts x) (hs : Guarded (OfSession w) Step x e x') :
    CatchingUp input n w t c texts x' ∧ left x'.1 w < left x.1 w := by
  obtain ⟨⟨horderly, hquiet⟩, ⟨hattached, hclient, hsince⟩, hlt⟩ := h.attached.step h.ready.meeting hs.1 hs.2
  rw [h.client] at hclient hsince
  exact ⟨⟨h.flowing.step horderly hs.2, h.ready.step hquiet hs.2.outcome, hattached, hclient, hsince.trans h.since⟩,
    hlt⟩

/-- The subscriber is accepted, and two messages are stored that it has not got. -/
def BehindByTwo (x : Network × Record) : Prop :=
  ((x.1.broker.phase 0).awaiting.isSome = true ∧ (x.1.subscriber (0, 2)).1.session.client ≠ .testing ∧
    (x.1.subscriber (0, 2)).1.session.client ≠ .exited ∧ (x.1.subscriber (0, 2)).1.ended = false ∧
    (x.1.subscriber (0, 2)).1.killed = false ∧ (x.1.subscriber (0, 2)).1.closed = false ∧
    x.1.arrival (0, 2) = .through ∧ x.1.killed = false) ∧
  x.1.client 0 = (0, 2) ∧ (x.1.subscriber (0, 2)).1.session.texts = [] ∧
    x.2.since (0, 2) = [ascii "one", ascii "two"]

instance : DecidablePred BehindByTwo := fun x => by
  unfold BehindByTwo
  infer_instance

end Mbroker.Clients
