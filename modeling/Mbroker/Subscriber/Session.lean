import Mbroker.Lib.Runs
import Mbroker.Protocol.MessagePipe

/-!
# The pipe of a subscriber session

What a worker writes to the pipe of a subscriber that it accepts, and the loop of `subscriber/sub.c` that prints it.
The worker writes the string "test" first and then messages of `sizeof(Message)` bytes; the subscriber asks for
`sizeof(Message)` bytes every time. No SIGINT comes.
-/

namespace Mbroker.Subscriber

open Mbroker.Lib Mbroker.Protocol

/-! ## The session -/

/-- The string "test" with its NUL. -/
def messageTest : List UInt8 := (ascii "test").chars ++ [0]

inductive WorkerPhase
  /-- Before the string. -/
  | testing
  | sending
  | closed
  deriving DecidableEq

inductive ClientPhase
  /-- At the read for the string. -/
  | testing
  /-- At the read behind `strcmp`. -/
  | accepted
  /-- At the top of the loop, with `message`. -/
  | printing (code : UInt8) (message : CString)
  /-- At the read in the loop. -/
  | reading
  | exited
  deriving DecidableEq

/-- A line that the subscriber prints. -/
inductive Output
  | boxNotFound
  | invalidType (code : UInt8)
  | message (text : CString)
  | count (msgCtr : Int)
  deriving DecidableEq

structure Session where
  pipe : List UInt8
  worker : WorkerPhase
  client : ClientPhase
  messageBuffer : Mem
  msgCtr : Int
  stdout : List Output

/-- The session when both sides have opened the pipe. -/
structure Session.Opened (s : Session) : Prop where
  pipe : s.pipe = []
  worker : s.worker = .testing
  client : s.client = .testing
  msgCtr : s.msgCtr = 0
  stdout : s.stdout = []

/-- A session whose buffer holds zeros. -/
def Session.start : Session := ⟨[], .testing, .testing, fun _ => 0, 0, []⟩

theorem Session.start_opened : Session.start.Opened := ⟨rfl, rfl, rfl, rfl, rfl⟩

/-- A text that a worker sends. -/
def Text : Type := { text : CString // text.strlen < sizeofText }

instance : DecidableEq Text := inferInstanceAs (DecidableEq { text : CString // text.strlen < sizeofText })

/-! ## Steps -/

namespace Session

/-- `msgCtr++`, of an `int`; 4294967296 is 2 ^ 32. -/
def count (msgCtr : Int) : Int := Int.bmod (msgCtr + 1) 4294967296

def printf (s : Session) (line : Output) : Session := { s with stdout := s.stdout ++ [line] }

/-- What follows the loop. -/
def finish (s : Session) : Session := { s.printf (.count s.msgCtr) with client := .exited }

/-- The comparison with "test". -/
def test (s : Session) : Session :=
  if strcmp s.messageBuffer (ascii "test") = 0 then { s with client := .accepted }
  else (s.printf .boxNotFound).finish

/-- The code and the text are taken out of `message_buffer`. -/
def take (s : Session) : Session :=
  { s with client := .printing (s.messageBuffer 0) (messageText s.messageBuffer) }

def print (s : Session) (code : UInt8) (message : CString) : Session :=
  if code ≠ subscriberCode then { s.printf (.invalidType code) with client := .reading }
  else { s.printf (.message message) with client := .reading, msgCtr := count s.msgCtr }

end Session

inductive Event
  /-- The worker writes the string. -/
  | test
  /-- The worker writes a message. -/
  | send (text : Text)
  /-- The worker closes the pipe. -/
  | close
  /-- A read of the subscriber returns the bytes that are there. -/
  | read
  /-- A read of the subscriber returns 0. -/
  | eof
  | print
  deriving DecidableEq

/-- The step of the worker or of the subscriber; `none` if it cannot take it now. -/
def step (s : Session) : Event → Option Session
  | .test =>
    match s.worker with
    | .testing => some { s with pipe := s.pipe ++ messageTest, worker := .sending }
    | _ => none
  | .send text =>
    match s.worker with
    | .sending => some { s with pipe := s.pipe ++ sendMessage subscriberCode text.1 }
    | _ => none
  | .close =>
    match s.worker with
    | .sending => some { s with worker := .closed }
    | _ => none
  | .read =>
    if s.pipe = [] then none
    else
      let s' := { s with
        pipe := s.pipe.drop sizeofMessage
        messageBuffer := readPipe s.messageBuffer 0 sizeofMessage s.pipe }
      match s.client with
      | .testing => some s'.test
      | .accepted => some s'.take
      | .reading => some s'.take
      | _ => none
  | .eof =>
    if s.pipe = [] ∧ s.worker = .closed then
      match s.client with
      | .testing => some s.test
      | .accepted => some s.take
      | .reading => some s.finish
      | _ => none
    else none
  | .print =>
    match s.client with
    | .printing code message => some (s.print code message)
    | _ => none

/-- What a step can do. -/
inductive Outcome (s : Session) : Event → Session → Prop
  | test : s.worker = .testing →
      Outcome s .test { s with pipe := s.pipe ++ messageTest, worker := .sending }
  | send {text} : s.worker = .sending →
      Outcome s (.send text) { s with pipe := s.pipe ++ sendMessage subscriberCode text.1 }
  | close : s.worker = .sending → Outcome s .close { s with worker := .closed }
  | readTest {b} : s.client = .testing → s.pipe ≠ [] → b = readPipe s.messageBuffer 0 sizeofMessage s.pipe →
      Outcome s .read ({ s with pipe := s.pipe.drop sizeofMessage, messageBuffer := b } : Session).test
  | readMessage {b} : s.client = .accepted ∨ s.client = .reading → s.pipe ≠ [] →
      b = readPipe s.messageBuffer 0 sizeofMessage s.pipe →
      Outcome s .read ({ s with pipe := s.pipe.drop sizeofMessage, messageBuffer := b } : Session).take
  | eofTest : s.client = .testing → s.pipe = [] → s.worker = .closed → Outcome s .eof s.test
  | eofAccepted : s.client = .accepted → s.pipe = [] → s.worker = .closed → Outcome s .eof s.take
  | eofReading : s.client = .reading → s.pipe = [] → s.worker = .closed → Outcome s .eof s.finish
  | print {code message} : s.client = .printing code message → Outcome s .print (s.print code message)

theorem outcome_of_step {s s' : Session} {e : Event} (h : step s e = some s') : Outcome s e s' := by
  cases e with
  | test | send | close =>
      simp only [step] at h
      split at h
      · rename_i hw
        cases h
        first | exact .test hw | exact .send hw | exact .close hw
      · cases h
  | read =>
      simp only [step] at h
      split at h
      · cases h
      · rename_i hne
        split at h
        · rename_i hc
          cases h
          exact .readTest hc hne rfl
        · rename_i hc
          cases h
          exact .readMessage (Or.inl hc) hne rfl
        · rename_i hc
          cases h
          exact .readMessage (Or.inr hc) hne rfl
        · cases h
  | eof =>
      simp only [step] at h
      split at h
      · rename_i hend
        split at h
        · rename_i hc
          cases h
          exact .eofTest hc hend.1 hend.2
        · rename_i hc
          cases h
          exact .eofAccepted hc hend.1 hend.2
        · rename_i hc
          cases h
          exact .eofReading hc hend.1 hend.2
        · cases h
      · cases h
  | print =>
      simp only [step] at h
      split at h
      · rename_i code message hc
        cases h
        exact .print hc
      · cases h

/-- The texts that were written. -/
def written (texts : List CString) (_ : Session) (e : Event) (_ : Session) : List CString :=
  match e with
  | .send text => texts ++ [text.1]
  | _ => texts

/-- A step, with the texts that were written beside the session. -/
def WritingStep (x : Session × List CString) (e : Event) (x' : Session × List CString) : Prop :=
  withRecord step written x e = some x'

theorem WritingStep.outcome {x x' : Session × List CString} {e : Event} (h : WritingStep x e x') :
    ∃ s', Outcome x.1 e s' ∧ x' = (s', written x.2 x.1 e s') := by
  obtain ⟨hs, hwritten⟩ := withRecord_eq_some.mp h
  exact ⟨x'.1, outcome_of_step hs, Prod.ext rfl hwritten⟩

theorem WritingStep.of_withRecord (x : Session × List CString) (e : Event) (x' : Session × List CString)
    (h : withRecord step written x e = some x') : WritingStep x e x' := h

/-! ## What is stated -/

def Output.text? : Output → Option CString
  | .message text => some text
  | _ => none

/-- The texts that were printed. -/
def Session.texts (s : Session) : List CString := s.stdout.filterMap Output.text?

/-- The texts that are printed are those written, and their number is printed last. -/
def PrintsAll (x : Session × List CString) : Prop :=
  x.1.texts = x.2 ∧ x.1.stdout.getLast? = some (.count x.2.length)

/-- The condition on the first read of the subscriber: nothing but the string is in the pipe. -/
def TestsAlone (x : Session × List CString) : Event → Prop
  | .read => x.1.client = .testing → x.1.pipe.length ≤ messageTest.length
  | _ => True

instance (x : Session × List CString) : DecidablePred (TestsAlone x)
  | .read => inferInstanceAs (Decidable (x.1.client = .testing → x.1.pipe.length ≤ messageTest.length))
  | .test | .send _ | .close | .eof | .print => isTrue trivial

end Mbroker.Subscriber
