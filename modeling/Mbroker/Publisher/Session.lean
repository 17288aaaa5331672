import Mbroker.Lib.Pipe
import Mbroker.Lib.Runs
import Mbroker.Protocol.MessagePipe

/-!
# The pipe of a publisher session

The loop of `publisher/pub.c` that sends lines, and the loop of `worker_thread_func` that reads them, for a session
that was accepted. The publisher writes a probe of two bytes first and then messages of `sizeof(Message)`
bytes; the worker asks for `sizeof(Message)` bytes every time. What `tfs_write` returns is left open.
-/

namespace Mbroker.Publisher

open Mbroker.Lib Mbroker.Protocol

/-! ## The session -/

/-- The probe: the string "0" with its NUL. -/
def messageTest : List UInt8 := [48, 0]

inductive ClientPhase
  /-- Before the probe. -/
  | testing
  | sending
  | closed
  deriving DecidableEq

inductive WorkerPhase
  /-- At the read for the probe. -/
  | testing
  /-- At the read of a message. -/
  | reading
  /-- At `tfs_write`, with the text of `message.message`. -/
  | writing (message : CString)
  /-- After the loop. -/
  | ended
  deriving DecidableEq

structure Session where
  pipe : List UInt8
  client : ClientPhase
  worker : WorkerPhase
  messageBuffer : Mem

/-- The session when it was accepted. -/
structure Session.Accepted (s : Session) : Prop where
  pipe : s.pipe = []
  client : s.client = .testing
  worker : s.worker = .testing

/-- A session whose buffer holds zeros. -/
def Session.start : Session := ⟨[], .testing, .testing, fun _ => 0⟩

theorem Session.start_accepted : Session.start.Accepted := ⟨rfl, rfl, rfl⟩

/-- A line `fgets` puts in `line`, without its newline. -/
def Line : Type := { text : CString // text.strlen < sizeofText }

instance : DecidableEq Line := inferInstanceAs (DecidableEq { text : CString // text.strlen < sizeofText })

/-! ## Steps -/

inductive Event
  /-- The publisher writes the probe. -/
  | test
  /-- The publisher writes a message. -/
  | send (line : Line)
  /-- The publisher closes the pipe. -/
  | close
  /-- A read of the worker returns the bytes that are there. -/
  | read
  /-- A read of the worker returns 0. -/
  | eof
  /-- `tfs_write` returns. -/
  | write (bytesWritten : Int)
  deriving DecidableEq

/-- The step of the publisher or of the worker; `none` if it cannot take it now. -/
def step (s : Session) : Event → Option Session
  | .test =>
    match s.client with
    | .testing => some { s with pipe := s.pipe ++ messageTest, client := .sending }
    | _ => none
  | .send line =>
    match s.client with
    | .sending => some { s with pipe := s.pipe ++ sendMessage publishCode line.1 }
    | _ => none
  | .close =>
    match s.client with
    | .sending => some { s with client := .closed }
    | _ => none
  | .read =>
    if s.pipe = [] then none
    else
      let messageBuffer := readPipe s.messageBuffer 0 sizeofMessage s.pipe
      let s' := { s with pipe := s.pipe.drop sizeofMessage, messageBuffer := messageBuffer }
      match s.worker with
      | .testing => some { s' with worker := .reading }
      | .reading => some { s' with worker := .writing (messageText messageBuffer) }
      | _ => none
  | .eof =>
    if s.pipe = [] ∧ s.client = .closed then
      match s.worker with
      | .testing => some { s with worker := .reading }
      | .reading => some { s with worker := .ended }
      | _ => none
    else none
  | .write bytesWritten =>
    match s.worker with
    | .writing _ => some { s with worker := if 0 < bytesWritten then .reading else .ended }
    | _ => none

def Step (s : Session) (e : Event) (s' : Session) : Prop := step s e = some s'

/-- The texts sent, those passed to `tfs_write`, and whether a `tfs_write` found no room. -/
structure Log where
  sent : List CString
  passed : List CString
  full : Bool
  deriving DecidableEq

def Log.empty : Log := ⟨[], [], false⟩

def Log.next (l : Log) (s : Session) : Event → Log
  | .send line => { l with sent := l.sent ++ [line.1] }
  | .write bytesWritten =>
    match s.worker with
    | .writing message => { l with passed := l.passed ++ [message], full := l.full || bytesWritten ≤ 0 }
    | _ => l
  | _ => l

/-- A step, recorded in the log. -/
def LoggedStep (x : Session × Log) (e : Event) (y : Session × Log) : Prop :=
  Step x.1 e y.1 ∧ y.2 = x.2.next x.1 e

def loggedStep (x : Session × Log) (e : Event) : Option (Session × Log) :=
  (step x.1 e).map fun s' => (s', x.2.next x.1 e)

theorem LoggedStep.of_loggedStep (x : Session × Log) (e : Event) (y : Session × Log) (h : loggedStep x e = some y) :
    LoggedStep x e y := by
  obtain ⟨s', hs', rfl⟩ := Option.map_eq_some_iff.mp h
  exact ⟨hs', rfl⟩

/-! ## The invariant -/

/-- The condition on the first read of the worker: nothing but the probe is in the pipe. -/
def TestsAlone (s : Session) : Event → Prop
  | .read => s.worker = .testing → s.pipe.length ≤ messageTest.length
  | _ => True

instance (s : Session) : DecidablePred (TestsAlone s)
  | .read => inferInstanceAs (Decidable (s.worker = .testing → s.pipe.length ≤ messageTest.length))
  | .test | .send _ | .close | .eof | .write _ => isTrue trivial

/-- Where the texts are that were sent: passed to `tfs_write`, in `message.message`, or in the pipe. -/
def Whole (s : Session) (l : Log) : Prop :=
  match s.worker with
  | .testing => l.passed = [] ∧
      (s.client = .testing ∧ l.sent = [] ∧ s.pipe = [] ∨
        s.client ≠ .testing ∧ s.pipe = messageTest ++ messageBytes publishCode l.sent)
  | .reading => ∃ rest, l.sent = l.passed ++ rest ∧ s.pipe = messageBytes publishCode rest ∧ s.client ≠ .testing
  | .writing message => ∃ rest, l.sent = l.passed ++ message :: rest ∧ s.pipe = messageBytes publishCode rest ∧
      s.client ≠ .testing
  | .ended => ∃ rest, l.sent = l.passed ++ rest ∧ s.client ≠ .testing ∧
      (l.full = false → rest = [] ∧ s.client = .closed)

structure SessionInv (s : Session) (l : Log) : Prop where
  whole : Whole s l
  short : ∀ t ∈ l.sent, t.strlen < sizeofText
  /-- The loop goes on only as long as the box has room. -/
  room : s.worker ≠ .ended → l.full = false

variable {s s' : Session} {l l' : Log}

theorem Session.Accepted.sessionInv (h : s.Accepted) : SessionInv s .empty where
  whole := by simp [Whole, h.worker, h.client, h.pipe, Log.empty]
  short := nofun
  room := fun _ => rfl

namespace SessionInv

theorem test (h : SessionInv s l) (hc : s.client = .testing) :
    SessionInv { s with pipe := s.pipe ++ messageTest, client := .sending } l := by
  have hw := h.whole
  unfold Whole at hw
  refine ⟨?_, h.short, h.room⟩
  unfold Whole
  cases hphase : s.worker with
  | testing =>
      rw [hphase] at hw
      obtain ⟨hpassed, ⟨-, hsent, hpipe⟩ | ⟨hne, -⟩⟩ := hw
      · exact ⟨hpassed, Or.inr ⟨nofun, by simp [hsent, hpipe, messageBytes]⟩⟩
      · exact absurd hc hne
  | reading =>
      rw [hphase] at hw
      obtain ⟨rest, -, -, hne⟩ := hw
      exact absurd hc hne
  | writing message =>
      rw [hphase] at hw
      obtain ⟨rest, -, -, hne⟩ := hw
      exact absurd hc hne
  | ended =>
      rw [hphase] at hw
      obtain ⟨rest, -, hne, -⟩ := hw
      exact absurd hc hne

theorem send (h : SessionInv s l) (hc : s.client = .sending) (line : Line) :
    SessionInv { s with pipe := s.pipe ++ sendMessage publishCode line.1 } { l with sent := l.sent ++ [line.1] } := by
  have hw := h.whole
  unfold Whole at hw
  refine ⟨?_, ?_, h.room⟩
  · unfold Whole
    cases hphase : s.worker with
    | testing =>
        rw [hphase] at hw
        obtain ⟨hpassed, ⟨hne, -⟩ | ⟨hne, hpipe⟩⟩ := hw
        · rw [hc] at hne
          cases hne
        · exact ⟨hpassed, Or.inr ⟨hne, by simp [hpipe, messageBytes_append]⟩⟩
    | reading =>
        rw [hphase] at hw
        obtain ⟨rest, hsent, hpipe, hne⟩ := hw
        exact ⟨rest ++ [line.1], by simp [hsent], by simp [hpipe, messageBytes_append], hne⟩
    | writing message =>
        rw [hphase] at hw
        obtain ⟨rest, hsent, hpipe, hne⟩ := hw
        exact ⟨rest ++ [line.1], by simp [hsent], by simp [hpipe, messageBytes_append], hne⟩
    | ended =>
        rw [hphase] at hw
        obtain ⟨rest, hsent, hne, hfull⟩ := hw
        refine ⟨rest ++ [line.1], by simp [hsent], hne, fun h0 => ?_⟩
        obtain ⟨-, hclosed⟩ := hfull h0
        rw [hc] at hclosed
        cases hclosed
  · intro t ht
    rcases List.mem_append.mp ht with ht | ht
    · exact h.short t ht
    · rw [List.mem_singleton] at ht
      rw [ht]
      exact line.2

theorem close (h : SessionInv s l) (hc : s.client = .sending) : SessionInv { s with client := .closed } l := by
  have hw := h.whole
  unfold Whole at hw
  refine ⟨?_, h.short, h.room⟩
  unfold Whole
  cases hphase : s.worker with
  | testing =>
      rw [hphase] at hw
      obtain ⟨hpassed, ⟨hne, -⟩ | ⟨-, hpipe⟩⟩ := hw
      · rw [hc] at hne
        cases hne
      · exact ⟨hpassed, Or.inr ⟨nofun, hpipe⟩⟩
  | reading =>
      rw [hphase] at hw
      obtain ⟨rest, hsent, hpipe, -⟩ := hw
      exact ⟨rest, hsent, hpipe, nofun⟩
  | writing message =>
      rw [hphase] at hw
      obtain ⟨rest, hsent, hpipe, -⟩ := hw
      exact ⟨rest, hsent, hpipe, nofun⟩
  | ended =>
      rw [hphase] at hw
      obtain ⟨rest, hsent, -, hfull⟩ := hw
      exact ⟨rest, hsent, nofun, fun h0 => ⟨(hfull h0).1, rfl⟩⟩

theorem read_test (h : SessionInv s l) (hphase : s.worker = .testing) (hpipe : s.pipe ≠ [])
    (halone : s.pipe.length ≤ messageTest.length) {messageBuffer : Mem} :
    SessionInv ⟨s.pipe.drop sizeofMessage, s.client, .reading, messageBuffer⟩ l := by
  have hw := h.whole
  simp only [Whole, hphase] at hw
  obtain ⟨hpassed, ⟨-, -, hnil⟩ | ⟨hne, hwait⟩⟩ := hw
  · exact absurd hnil hpipe
  · rw [hwait, List.length_append] at halone
    have hnone : messageBytes publishCode l.sent = [] := List.length_eq_zero_iff.mp (by omega)
    refine ⟨⟨[], ?_, ?_, hne⟩, h.short, fun _ => h.room (by rw [hphase]; nofun)⟩
    · rw [hpassed, messageBytes_eq_nil.mp hnone]
      rfl
    · rw [hwait, hnone]
      rfl

theorem read_message (h : SessionInv s l) (hphase : s.worker = .reading) (hpipe : s.pipe ≠ []) {messageBuffer : Mem}
    (hm : messageBuffer = readPipe s.messageBuffer 0 sizeofMessage s.pipe) :
    SessionInv ⟨s.pipe.drop sizeofMessage, s.client, .writing (messageText messageBuffer), messageBuffer⟩ l := by
  have hw := h.whole
  simp only [Whole, hphase] at hw
  obtain ⟨rest, hsent, hwait, hne⟩ := hw
  cases rest with
  | nil => exact absurd hwait hpipe
  | cons t rest =>
      have hshort := h.short t (by simp [hsent])
      obtain ⟨-, htext, hrest⟩ := read_messageBytes publishCode s.messageBuffer rest hshort
      rw [hm, hwait, htext, hrest]
      exact ⟨⟨rest, hsent, rfl, hne⟩, h.short, fun _ => h.room (by rw [hphase]; nofun)⟩

theorem eof (h : SessionInv s l) (hphase : s.worker = .reading) (hpipe : s.pipe = []) (hc : s.client = .closed) :
    SessionInv { s with worker := .ended } l := by
  have hw := h.whole
  simp only [Whole, hphase] at hw
  obtain ⟨rest, hsent, hwait, hne⟩ := hw
  have hnil : rest = [] := messageBytes_eq_nil.mp (hwait.symm.trans hpipe)
  exact ⟨⟨rest, hsent, hne, fun _ => ⟨hnil, hc⟩⟩, h.short, fun he => absurd rfl he⟩

theorem write (h : SessionInv s l) {message : CString} (hphase : s.worker = .writing message) (bytesWritten : Int) :
    SessionInv { s with worker := if 0 < bytesWritten then .reading else .ended }
      { l with passed := l.passed ++ [message], full := l.full || bytesWritten ≤ 0 } := by
  have hw := h.whole
  simp only [Whole, hphase] at hw
  obtain ⟨rest, hsent, hwait, hne⟩ := hw
  have hroom := h.room (by rw [hphase]; nofun)
  by_cases hr : 0 < bytesWritten
  · have hle : ¬ bytesWritten ≤ 0 := by omega
    refine ⟨?_, h.short, fun _ => ?_⟩
    · simp only [Whole, hr, ↓reduceIte]
      exact ⟨rest, by simp [hsent], hwait, hne⟩
    · simp [hroom, hle]
  · have hle : bytesWritten ≤ 0 := by omega
    refine ⟨?_, h.short, fun he => ?_⟩
    · simp only [Whole, hr, ↓reduceIte]
      exact ⟨rest, by simp [hsent], hne, fun h0 => by simp [hle] at h0⟩
    · simp [hr] at he

theorem step {e : Event} (h : SessionInv s l) (hg : TestsAlone s e) (hs : LoggedStep (s, l) e (s', l')) :
    SessionInv s' l' := by
  obtain ⟨hstep, hlog⟩ := hs
  simp only at hstep hlog
  subst hlog
  cases e with
  | test =>
      simp only [Step, Publisher.step] at hstep
      split at hstep
      · rename_i hc
        cases hstep
        exact h.test hc
      · cases hstep
  | send line =>
      simp only [Step, Publisher.step] at hstep
      split at hstep
      · rename_i hc
        cases hstep
        exact h.send hc line
      · cases hstep
  | close =>
      simp only [Step, Publisher.step] at hstep
      split at hstep
      · rename_i hc
        cases hstep
        exact h.close hc
      · cases hstep
  | read =>
      simp only [Step, Publisher.step] at hstep
      split at hstep
      · cases hstep
      · rename_i hpipe
        split at hstep
        · rename_i hphase
          cases hstep
          exact h.read_test hphase hpipe (hg hphase)
        · rename_i hphase
          cases hstep
          exact h.read_message hphase hpipe rfl
        · cases hstep
  | eof =>
      simp only [Step, Publisher.step] at hstep
      split at hstep
      · rename_i hend
        split at hstep
        · rename_i hphase
          have hw := h.whole
          simp only [Whole, hphase, hend.1, hend.2] at hw
          simp [messageTest] at hw
        · rename_i hphase
          cases hstep
          exact h.eof hphase hend.1 hend.2
        · cases hstep
      · cases hstep
  | write bytesWritten =>
      simp only [Step, Publisher.step] at hstep
      split at hstep
      · rename_i message hphase
        cases hstep
        simp only [Log.next, hphase]
        exact h.write hphase bytesWritten
      · cases hstep

end SessionInv

end Mbroker.Publisher
