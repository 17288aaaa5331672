import Mbroker.Lib.Pipe
import Mbroker.Lib.Runs
import Mbroker.Protocol.Messages
import Mbroker.Queue.ProducerConsumer

/-!
# From the register pipe to the workers

`main` of `mbroker.c` and the first lines of `worker_thread_func`: requests are read into one buffer, pointers
to it go through the queue, and a worker copies the request out of what its pointer points to. A client writes
its request in one piece; everything else can come in any order.
-/

namespace Mbroker.Dispatch

open Mbroker.Lib Mbroker.Protocol Mbroker.Queue

/-! ## Requests -/

/-- The requests of the clients that use `send_request`. -/
inductive Kind
  | publisher
  | subscriber
  | creation
  | removal
  deriving DecidableEq

def Kind.code : Kind → UInt8
  | publisher => 1
  | subscriber => 2
  | creation => 3
  | removal => 5

/-- What a client writes to the register pipe. -/
inductive ClientRequest
  | request (kind : Kind) (clientNamedPipePath boxName : CString)
  | listing (clientNamedPipePath : CString)
  deriving DecidableEq

def ClientRequest.bytes : ClientRequest → List UInt8
  | request kind path box => sendRequest ⟨kind.code, path, box⟩
  | listing path => sendListingRequest path

/-- What a worker has copied out of a request when it starts to process it. -/
inductive Decoded
  | request (r : Request)
  | listing (clientNamedPipePath : CString)
  | unknown (code : UInt8)
  deriving DecidableEq

/-- The box name fits its field, as every string does that was taken out of one. -/
def Decoded.Fits : Decoded → Prop
  | request r => r.boxName.strlen ≤ sizeofBoxName
  | _ => True

instance : (d : Decoded) → Decidable d.Fits
  | .request r => inferInstanceAs (Decidable (r.boxName.strlen ≤ sizeofBoxName))
  | .listing _ | .unknown _ => isTrue trivial

/-! ## The system -/

inductive MainPhase
  /-- At the test of `end`. -/
  | testing
  /-- In `read`. -/
  | reading
  /-- In `pcq_enqueue`. -/
  | enqueuing
  | exited
  deriving DecidableEq

/-- Where a worker is, with what it has copied so far. -/
inductive WorkerPhase
  | idle
  | dequeued (requestBuffer : Nat)
  | coded (requestBuffer : Nat) (code : UInt8)
  | pathed (requestBuffer : Nat) (code : UInt8) (clientNamedPipePath : CString)
  | processing (d : Decoded)
  | exited
  deriving DecidableEq

/-- A worker that holds a pointer and has not copied all of the request yet. -/
def WorkerPhase.Copying : WorkerPhase → Prop
  | dequeued _ | coded _ _ | pathed _ _ _ => True
  | _ => False

instance : (phase : WorkerPhase) → Decidable phase.Copying
  | .dequeued _ | .coded _ _ | .pathed _ _ _ => isTrue trivial
  | .idle | .processing _ | .exited => isFalse id

/-- The address of `buffer` in `main`; address 0 is NULL. -/
def bufferAddr : Nat := 4096

structure System where
  registerPipe : List UInt8
  memory : Mem
  «end» : Bool
  main : MainPhase
  queue : PcQueue Nat
  numThreads : Nat
  worker : Nat → WorkerPhase

namespace System

/-- The bytes of `buffer`. -/
def buffer (s : System) : List UInt8 := (s.memory.ptr bufferAddr).bytes sizeofRequest

def setWorker (s : System) (w : Nat) (phase : WorkerPhase) : System :=
  { s with worker := Function.update s.worker w phase }

/-- The broker before the loop of `main`, with all its workers started. -/
structure Started (s : System) : Prop where
  pipe : s.registerPipe = []
  «end» : s.«end» = false
  main : s.main = .testing
  queue : ∃ buffer capacity, s.queue = pcqCreate buffer capacity
  worker : ∀ w, s.worker w = .idle

/-- A broker whose memory holds zeros. -/
def start (capacity numThreads : Nat) : System where
  registerPipe := []
  memory := fun _ => 0
  «end» := false
  main := .testing
  queue := pcqCreate (fun _ => 0) capacity
  numThreads := numThreads
  worker := fun _ => .idle

theorem start_started (capacity numThreads : Nat) : (start capacity numThreads).Started :=
  ⟨rfl, rfl, rfl, ⟨_, _, rfl⟩, fun _ => rfl⟩

end System

/-! ## Steps -/

inductive Event
  /-- A client writes its request. -/
  | write (r : ClientRequest)
  /-- `sigint_handler` runs. -/
  | signal
  /-- `main` tests `end`. -/
  | test
  /-- The `read` of `main` returns the bytes that are there. -/
  | read
  /-- The `read` of `main` fails with -1. -/
  | interrupted
  | enqueue
  | dequeue (w : Nat)
  | copyCode (w : Nat)
  | copyPath (w : Nat)
  | copyBox (w : Nat)
  /-- The worker is done with its request. -/
  | finish (w : Nat)
  deriving DecidableEq

/-- The codes `worker_thread_func` has a case for. -/
def knownCode (code : UInt8) : Bool := code = 1 ∨ code = 2 ∨ code = 3 ∨ code = 5 ∨ code = listingCode

/-- The step of one thread, or of a client; `none` if it cannot take it now. -/
def step (s : System) : Event → Option System
  | .write r => some { s with registerPipe := s.registerPipe ++ r.bytes }
  | .signal => some { s with «end» := true }
  | .test =>
    match s.main with
    | .testing => some { s with main := if s.«end» then .exited else .reading }
    | _ => none
  | .read =>
    match s.main, s.registerPipe with
    | .reading, _ :: _ =>
      some { s with
        memory := readPipe s.memory bufferAddr sizeofRequest s.registerPipe
        registerPipe := s.registerPipe.drop sizeofRequest
        main := .enqueuing }
    | _, _ => none
  | .interrupted =>
    match s.main with
    | .reading => some { s with main := .enqueuing }
    | _ => none
  | .enqueue =>
    match s.main, pcqEnqueue s.queue bufferAddr with
    | .enqueuing, some queue => some { s with queue := queue, main := .testing }
    | _, _ => none
  | .dequeue w =>
    match s.worker w, pcqDequeue s.queue with
    | .idle, some (requestBuffer, queue) =>
      if w < s.numThreads then
        some ({ s with queue := queue }.setWorker w
          (if requestBuffer = 0 then .exited else .dequeued requestBuffer))
      else none
    | _, _ => none
  | .copyCode w =>
    match s.worker w with
    | .dequeued requestBuffer =>
      let code := s.memory requestBuffer
      some (s.setWorker w (if knownCode code then .coded requestBuffer code else .processing (.unknown code)))
    | _ => none
  | .copyPath w =>
    match s.worker w with
    | .coded requestBuffer code =>
      let path := removeStringsFromBuffer (s.memory.ptr (requestBuffer + 1)) sizeofPipePath
      some (s.setWorker w
        (if code = listingCode then .processing (.listing path) else .pathed requestBuffer code path))
    | _ => none
  | .copyBox w =>
    match s.worker w with
    | .pathed requestBuffer code path =>
      let box := removeStringsFromBuffer (s.memory.ptr (requestBuffer + 1 + sizeofPipePath)) sizeofBoxName
      some (s.setWorker w (.processing (.request ⟨code, path, box⟩)))
    | _ => none
  | .finish w =>
    match s.worker w with
    | .processing _ => some (s.setWorker w .idle)
    | _ => none

def Step (s : System) (e : Event) (s' : System) : Prop := step s e = some s'

/-! ## What a run has done so far -/

/-- The requests written, what the buffer held at each `pcq_enqueue`, the number of the pointer each worker
dequeued last, and for every dequeued pointer what the worker copied, once it has copied all. -/
structure Log where
  written : List ClientRequest
  enqueued : List (List UInt8)
  ticket : Nat → Nat
  decodings : List (Option Decoded)

namespace Log

def empty : Log := ⟨[], [], fun _ => 0, []⟩

/-- `d` is all of the request that the worker `w` works on. -/
def decode (l : Log) (w : Nat) : WorkerPhase → Log
  | .processing d => { l with decodings := l.decodings.set (l.ticket w) (some d) }
  | _ => l

def next (l : Log) (s s' : System) : Event → Log
  | .write r => { l with written := l.written ++ [r] }
  | .enqueue => { l with enqueued := l.enqueued ++ [s.buffer] }
  | .dequeue w =>
    { l with ticket := Function.update l.ticket w l.decodings.length, decodings := l.decodings ++ [none] }
  | .copyCode w | .copyPath w | .copyBox w => l.decode w (s'.worker w)
  | _ => l

end Log

/-- A step, recorded in the log. -/
def LoggedStep (x : System × Log) (e : Event) (y : System × Log) : Prop :=
  Step x.1 e y.1 ∧ y.2 = x.2.next x.1 y.1 e

def loggedStep (x : System × Log) (e : Event) : Option (System × Log) :=
  (step x.1 e).map fun s' => (s', x.2.next x.1 s' e)

theorem LoggedStep.of_loggedStep (x : System × Log) (e : Event) (y : System × Log) (h : loggedStep x e = some y) :
    LoggedStep x e y := by
  obtain ⟨s', hs', rfl⟩ := Option.map_eq_some_iff.mp h
  exact ⟨hs', rfl⟩

/-! ## What a step can do -/

/-- The worker whose step it is. -/
def Event.worker : Event → Option Nat
  | dequeue w | copyCode w | copyPath w | copyBox w | finish w => some w
  | _ => none

/-- A worker touches neither the pipe nor the memory nor `main`. -/
theorem Step.of_worker {s s' : System} {e : Event} {w : Nat} (h : Step s e s') (hw : e.worker = some w) :
    s'.registerPipe = s.registerPipe ∧ s'.memory = s.memory ∧ s'.main = s.main := by
  cases e <;> simp only [Event.worker, reduceCtorEq] at hw <;> simp only [Step, step] at h <;>
    repeat' split at h
  all_goals cases h
  all_goals exact ⟨rfl, rfl, rfl⟩

end Mbroker.Dispatch
