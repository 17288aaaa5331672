import Mbroker.Publisher.Process
import Mbroker.Sessions.Answers
import Mbroker.Sessions.Delivery
import Mbroker.Subscriber.Interrupts

/-!
# The broker and its clients

The workers of the broker, and for every request that one of them takes the process of `publisher/pub.c` or
`subscriber/sub.c` at the other end of its pipe, with its input and its output. What a worker reads comes from the
publisher of its request, and what it writes goes to the subscriber. A case begins with the `open` of the pipe, which
returns to the worker and the client when both are there. Signals come to a client in its `open`, which then fails, and
from its `end = 0` on. Pipes hold all that is written to them, and a client that is refused gets nothing. Behind its
`open` only a subscriber leaves before it got all that is written to it; then the broker gets SIGPIPE. A run is over
when that kills it.
-/

namespace Mbroker.Clients

open Mbroker.Lib Mbroker.Fs Mbroker.Protocol Mbroker.Sessions

/-! ## The state -/

/-- The client whose request is the `n`-th one that the worker `w` takes. -/
abbrev Client : Type := Nat × Nat

/-- Where a client is with the `open` of its pipe. -/
inductive Arrival
  | ahead
  | waiting
  /-- `open` has returned to the client and to its worker. -/
  | through
  /-- A signal has ended the client in its `open`. -/
  | lost
  deriving DecidableEq

structure Network where
  broker : Broker
  /-- How many requests each worker has taken. -/
  taken : Nat → Nat
  publisher : Client → Publisher.Process × Publisher.Log
  subscriber : Client → Subscriber.Process × List CString
  arrival : Client → Arrival
  /-- `sigpipe_handler` is set. It is for one SIGPIPE, and the next one kills the process. -/
  handler : Bool
  killed : Bool

namespace Network

def client (s : Network) (w : Nat) : Client := (w, s.taken w)

/-- The broker before the first request, and the clients with their inputs. -/
structure Started (s : Network) (input : Client → List UInt8) : Prop where
  broker : s.broker.Started
  publisher : ∀ c, (s.publisher c).1.Accepted (input c) ∧ (s.publisher c).2 = .empty
  subscriber : ∀ c, ∃ t, t.Opened ∧ s.subscriber c = (.start t, [])
  arrival : ∀ c, s.arrival c = .ahead
  killed : s.killed = false

def start (numThreads : Nat) (input : Client → List UInt8) : Network where
  broker := .start numThreads
  taken := fun _ => 0
  publisher := fun c => (.start (input c), .empty)
  subscriber := fun _ => (.start .start, [])
  arrival := fun _ => .ahead
  handler := false
  killed := false

theorem start_started (numThreads : Nat) (input : Client → List UInt8) : (start numThreads input).Started input where
  broker := Broker.start_started numThreads
  publisher := fun c => ⟨Publisher.Process.start_accepted (input c), rfl⟩
  subscriber := fun _ => ⟨.start, Subscriber.Session.start_opened, rfl⟩
  arrival := fun _ => rfl
  killed := rfl

end Network

/-! ## The pipes -/

/-- What `tfs_write` returns to the worker `w`. -/
def bytesWritten (b : Broker) (w : Nat) : Int :=
  match b.phase w with
  | .pubWriting s message =>
    match Fs.tfsWrite b.fs s.fileHandle message.mem (message.strlen + 1) with
    | .ok (n, _) => n
    | .error _ => -1
  | _ => -1

/-- What a step of a worker does at its end of the pipe of a publisher. -/
def readEvent (b : Broker) (e : Sessions.Event) (p : Publisher.Session) : Option Publisher.Event :=
  match e with
  | .readProbe _ => some (if p.pipe = [] then .eof else .read)
  | .readMessage _ _ => some .read
  | .readEnd _ => some .eof
  | .publish w => some (.write (bytesWritten b w))
  | _ => none

/-- The message of the step is the one that was read. -/
def Received (e : Sessions.Event) (p : Publisher.Session) : Prop :=
  match e with
  | .readMessage _ message => p.worker = .writing message
  | _ => True

instance (e : Sessions.Event) (p : Publisher.Session) : Decidable (Received e p) := by
  unfold Received
  split <;> infer_instance

def receive (b : Broker) (e : Sessions.Event) (p : Publisher.Process × Publisher.Log) :
    Option (Publisher.Process × Publisher.Log) :=
  match readEvent b e p.1.session with
  | none => some p
  | some r => (Publisher.processStep p (.worker r)).filter fun p' => Received e p'.1.session

theorem replay_fits (buffer : Mem) : ∀ t ∈ replay buffer, t.strlen < sizeofText := replayLoop_fits _ _ _

/-- The events of the messages that a subscriber is sent. -/
def sendEvents (texts : List CString) (h : ∀ t ∈ texts, t.strlen < sizeofText) : List Subscriber.Event :=
  texts.attach.map fun t => .send ⟨t.1, h t.1 t.2⟩

/-- What a step of a worker does at its end of the pipe of a subscriber. -/
def writeEvents (b : Broker) : Sessions.Event → List Subscriber.Event
  | .countSubscriber _ => [.test]
  | .replay w => sendEvents (replay (b.fullBoxBuffer w)) (replay_fits _)
  | .send w true => [.send ⟨firstMessage (b.fullBoxBuffer w), firstMessage_fits _⟩]
  | .uncountSubscriber _ => [.close]
  | _ => []

/-- Nobody reads from the pipe any more. -/
def Gone (q : Subscriber.Process) : Prop := q.killed = true ∨ q.closed = true

instance (q : Subscriber.Process) : Decidable (Gone q) := by
  unfold Gone
  infer_instance

def deliver (q : Subscriber.Process × List CString) : List Subscriber.Event → Option (Subscriber.Process × List CString)
  | [] => some q
  | e :: es => (withRecord Subscriber.processStep Subscriber.processWritten q (.session e)).bind fun q => deliver q es

/-- Nothing reaches a subscriber that is gone. -/
def handOver (q : Subscriber.Process × List CString) (es : List Subscriber.Event) :
    Option (Subscriber.Process × List CString) := if Gone q.1 then some q else deliver q es

/-! ## Steps -/

inductive Event
  | worker (e : Sessions.Event)
  /-- SIGPIPE kills the broker in a step of a worker. -/
  | sigpipe (e : Sessions.Event)
  /-- The client comes to the `open` of its pipe. -/
  | opens (c : Client)
  /-- A signal comes to a client in its `open`, which fails. -/
  | leaves (c : Client)
  /-- `open` returns to the worker and its client. -/
  | meets (w : Nat)
  | publisher (c : Client) (e : Publisher.ProcessEvent)
  | subscriber (c : Client) (e : Subscriber.ProcessEvent)

def ofPublisher : Publisher.ProcessEvent → Bool
  | .worker _ => false
  | _ => true

def ofSubscriber : Subscriber.ProcessEvent → Bool
  | .session .test | .session (.send _) | .session .close => false
  | _ => true

def takenAfter (taken : Nat → Nat) : Sessions.Event → Nat → Nat
  | .take w _ => Function.update taken w (taken w + 1)
  | _ => taken

/-- The write of a message fails exactly if its subscriber is gone. -/
def Sends (s : Network) : Sessions.Event → Prop
  | .send w written => written = true ↔ ¬ Gone (s.subscriber (s.client w)).1
  | _ => True

instance (s : Network) (e : Sessions.Event) : Decidable (Sends s e) := by
  unfold Sends
  split <;> infer_instance

/-- The broker is there, and the worker and its client are through the `open` of the pipe. -/
structure Able (s : Network) (e : Sessions.Event) : Prop where
  alive : s.killed = false
  through : (s.broker.phase e.worker).opens = true → s.arrival (s.client e.worker) = .through
  sends : Sends s e

instance (s : Network) (e : Sessions.Event) : Decidable (Able s e) :=
  decidable_of_iff (s.killed = false ∧
    ((s.broker.phase e.worker).opens = true → s.arrival (s.client e.worker) = .through) ∧ Sends s e)
    ⟨fun h => ⟨h.1, h.2.1, h.2.2⟩, fun h => ⟨h.alive, h.through, h.sends⟩⟩

/-- How often a step writes to a subscriber. -/
def writes (b : Broker) : Sessions.Event → Nat
  | .countSubscriber _ | .send _ _ => 1
  | .replay w => (replay (b.fullBoxBuffer w)).length
  | _ => 0

/-- How many of the writes raise SIGPIPE. -/
def failures (s : Network) (e : Sessions.Event) : Nat :=
  if Gone (s.subscriber (s.client e.worker)).1 then writes s.broker e else 0

/-- SIGPIPE comes once more than it is handled. -/
def Fatal (s : Network) (e : Sessions.Event) : Prop := (if s.handler then 1 else 0) < failures s e

instance (s : Network) (e : Sessions.Event) : Decidable (Fatal s e) := by
  unfold Fatal
  infer_instance

/-- Every request of a subscriber sets the handler again. -/
def handlerAfter (s : Network) : Sessions.Event → Bool
  | .take _ (.request r) => if r.code = 2 then true else s.handler
  | e => s.handler && decide (failures s e = 0)

def Network.arrive (s : Network) (c : Client) (a : Arrival) : Network :=
  { s with arrival := Function.update s.arrival c a }

/-- The step; `none` if it cannot be taken now. -/
def step (s : Network) : Event → Option Network
  | .worker e =>
    if Able s e ∧ ¬ Fatal s e then
      (Sessions.step s.broker e).bind fun broker =>
        (receive s.broker e (s.publisher (s.client e.worker))).bind fun p =>
          (handOver (s.subscriber (s.client e.worker)) (writeEvents s.broker e)).map fun q =>
            { s with
              broker := broker
              taken := takenAfter s.taken e
              publisher := Function.update s.publisher (s.client e.worker) p
              subscriber := Function.update s.subscriber (s.client e.worker) q
              handler := handlerAfter s e }
    else none
  | .sigpipe e =>
    if Able s e ∧ Fatal s e then (Sessions.step s.broker e).map fun _ => { s with killed := true } else none
  | .opens c => if s.killed = false ∧ s.arrival c = .ahead then some (s.arrive c .waiting) else none
  | .leaves c => if s.killed = false ∧ s.arrival c = .waiting then some (s.arrive c .lost) else none
  | .meets w =>
    if s.killed = false ∧ (s.broker.phase w).opens = true ∧ s.arrival (s.client w) = .waiting then
      some (s.arrive (s.client w) .through)
    else none
  | .publisher c e =>
    if s.killed = false ∧ ofPublisher e ∧ s.arrival c = .through then
      (Publisher.processStep (s.publisher c) e).map fun p => { s with publisher := Function.update s.publisher c p }
    else none
  | .subscriber c e =>
    if s.killed = false ∧ ofSubscriber e ∧ s.arrival c = .through then
      (withRecord Subscriber.processStep Subscriber.processWritten (s.subscriber c) e).map fun q =>
        { s with subscriber := Function.update s.subscriber c q }
    else none

/-! ## What a run has done so far -/

structure Record where
  /-- The box of each client's request. -/
  box : Client → CString
  /-- What was stored, and by which publisher. -/
  log : List (Client × CString)
  /-- How much was stored before the first `tfs_read` of each subscriber's session. -/
  seen : Client → Nat
  /-- What each subscriber was sent in the replay, and since. -/
  replayed : Client → List CString
  sent : Client → List CString

namespace Record

def empty : Record := ⟨fun _ => ⟨[], by simp⟩, [], fun _ => 0, fun _ => [], fun _ => []⟩

def next (r : Record) (s : Network) (e : Event) (s' : Network) : Record :=
  match e with
  | .worker (.take w (.request q)) => { r with box := Function.update r.box (s'.client w) (newBoxName q.boxName) }
  | .worker (.publish w) =>
    match stored s.broker (.publish w) s'.broker with
    | some (_, message) => { r with log := r.log ++ [(s.client w, message)] }
    | none => r
  | .worker (.readBox w) => { r with seen := Function.update r.seen (s.client w) r.log.length }
  | .worker (.replay w) =>
    { r with replayed := Function.update r.replayed (s.client w) (replay (s.broker.fullBoxBuffer w)) }
  | .worker (.send w true) =>
    { r with
      sent := Function.update r.sent (s.client w)
        (r.sent (s.client w) ++ [firstMessage (s.broker.fullBoxBuffer w)]) }
  | _ => r

/-- What the publisher `c` has stored. -/
def storedBy (r : Record) (c : Client) : List CString := (r.log.filter (·.1 = c)).map Prod.snd

/-- What was stored in the box of the subscriber `c` since its first `tfs_read`. -/
def since (r : Record) (c : Client) : List CString :=
  ((r.log.drop (r.seen c)).filter fun a => r.box a.1 = r.box c).map Prod.snd

end Record

/-- A step of the network, with the record beside it. -/
def Step (x : Network × Record) (e : Event) (x' : Network × Record) : Prop := withRecord step Record.next x e = some x'

theorem Step.of_withRecord (x : Network × Record) (e : Event) (x' : Network × Record)
    (h : withRecord step Record.next x e = some x') : Step x e x' := h

/-! ## What a step can do -/

inductive Outcome (x : Network × Record) : Event → Network × Record → Prop
  | worker {e : Sessions.Event} {b : Broker} {p : Publisher.Process × Publisher.Log}
      {q : Subscriber.Process × List CString} {s' : Network} : Able x.1 e → Sessions.Step x.1.broker e b →
      receive x.1.broker e (x.1.publisher (x.1.client e.worker)) = some p →
      handOver (x.1.subscriber (x.1.client e.worker)) (writeEvents x.1.broker e) = some q →
      s' = { x.1 with
             broker := b
             taken := takenAfter x.1.taken e
             publisher := Function.update x.1.publisher (x.1.client e.worker) p
             subscriber := Function.update x.1.subscriber (x.1.client e.worker) q
             handler := handlerAfter x.1 e } →
      Outcome x (.worker e) (s', x.2.next x.1 (.worker e) s')
  | sigpipe {e : Sessions.Event} : Fatal x.1 e → Outcome x (.sigpipe e) ({ x.1 with killed := true }, x.2)
  | opens {c} : Outcome x (.opens c) (x.1.arrive c .waiting, x.2)
  | leaves {c} : Outcome x (.leaves c) (x.1.arrive c .lost, x.2)
  | meets {w} : (x.1.broker.phase w).opens = true → Outcome x (.meets w) (x.1.arrive (x.1.client w) .through, x.2)
  | publisher {c e p} : ofPublisher e = true → Publisher.ProcessStep (x.1.publisher c) e p →
      Outcome x (.publisher c e) ({ x.1 with publisher := Function.update x.1.publisher c p }, x.2)
  | subscriber {c e q} : ofSubscriber e = true → Subscriber.ProcessStep (x.1.subscriber c) e q →
      Outcome x (.subscriber c e) ({ x.1 with subscriber := Function.update x.1.subscriber c q }, x.2)

theorem Step.outcome {x x' : Network × Record} {e : Event} (h : Step x e x') : Outcome x e x' := by
  obtain ⟨hs, hr⟩ := withRecord_eq_some.mp h
  obtain ⟨s', r'⟩ := x'
  simp only at hs hr
  subst hr
  cases e with
  | worker e =>
      simp only [step] at hs
      split at hs
      · rename_i hable
        obtain ⟨b, hb, hs⟩ := Option.bind_eq_some_iff.mp hs
        obtain ⟨p, hp, hs⟩ := Option.bind_eq_some_iff.mp hs
        obtain ⟨q, hq, hs⟩ := Option.map_eq_some_iff.mp hs
        exact .worker hable.1 hb hp hq hs.symm
      · cases hs
  | sigpipe e =>
      simp only [step] at hs
      split at hs
      · rename_i hable
        obtain ⟨b, -, rfl⟩ := Option.map_eq_some_iff.mp hs
        exact .sigpipe hable.2
      · cases hs
  | opens c =>
      simp only [step] at hs
      split at hs
      · cases hs
        exact .opens
      · cases hs
  | leaves c =>
      simp only [step] at hs
      split at hs
      · cases hs
        exact .leaves
      · cases hs
  | meets w =>
      simp only [step] at hs
      split at hs
      · rename_i hmeet
        cases hs
        exact .meets hmeet.2.1
      · cases hs
  | publisher c e =>
      simp only [step] at hs
      split at hs
      · rename_i he
        obtain ⟨p, hp, rfl⟩ := Option.map_eq_some_iff.mp hs
        exact .publisher he.2.1 hp
      · cases hs
  | subscriber c e =>
      simp only [step] at hs
      split at hs
      · rename_i he
        obtain ⟨q, hq, rfl⟩ := Option.map_eq_some_iff.mp hs
        exact .subscriber he.2.1 hq
      · cases hs

end Mbroker.Clients
