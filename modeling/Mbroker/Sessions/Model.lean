import Mbroker.Dispatch.Model
import Mbroker.Fs.Operations
import Mbroker.Protocol.BoxList

/-!
# The broker

The cases of `worker_thread_func`, for any number of workers whose steps come in any order. A step ends where
another worker can come in between: a TecnicoFS call, a section under `box_list_lock` or under a box's
`box_condvar_lock`, or one access to a field of a box. A worker that exits the process, or follows a pointer to
a box that was freed, takes no step.
-/

namespace Mbroker.Sessions

open Mbroker.Lib Mbroker.Fs Mbroker.Protocol

/-! ## Workers -/

/-- `sprintf(new_box_name, "/%s", request.box_name)` -/
def newBoxName (boxName : CString) : CString where
  chars := slash :: boxName.chars
  noNul := by
    rw [List.mem_cons]
    rintro (h | h)
    · cases h
    · exact boxName.noNul h

/-- What an accepted publisher or subscriber session holds. -/
structure Session where
  newBoxName : CString
  fileHandle : Int
  boxData : Nat

/-- Where a worker is, with the locals it still needs. -/
inductive Phase
  | idle
  /- Publishers: at `tfs_open`, at `find_box`, at the test; after it at `n_publishers = 1`, at the read of the
  probe, at the read of a message, in the section that writes it, and at `n_publishers = 0`. -/
  | pub (name : CString)
  | pubOpened (name : CString) (fileHandle : Int)
  | pubFound (name : CString) (fileHandle : Int) (boxData : Option Nat)
  | pubAccepted (s : Session)
  | pubTesting (s : Session)
  | pubReading (s : Session)
  | pubWriting (s : Session) (message : CString)
  | pubEnding (s : Session)
  /- Subscribers: at `find_box`, at `tfs_open`, at the test; after it at `n_subscribers++`, at the first
  `tfs_read`, at the replay, at `last_size = box_size`, waiting, at the write of a message, and at
  `n_subscribers - 1`. -/
  | sub (name : CString)
  | subFound (name : CString) (boxData : Option Nat)
  | subOpened (name : CString) (boxData : Option Nat) (fileHandle : Int)
  | subAccepted (s : Session)
  | subCounted (s : Session)
  | subRead (s : Session)
  | subReplayed (s : Session)
  | subWaiting (s : Session) (lastSize : Nat)
  | subSending (s : Session) (lastSize : Nat)
  | subEnding (s : Session)
  /- Creation and removal: at the TecnicoFS call, at the change of the list, and at the answer. -/
  | create (name : CString)
  | created (name : CString)
  | remove (name : CString)
  | removed (name : CString)
  | responding (response : BoxResponse)
  /- Listing: at the lock of the list, and in the loop. -/
  | list
  | listing (boxData : Option Nat)

/-- The case of `worker_thread_func` for what was decoded. -/
def Phase.start : Dispatch.Decoded → Phase
  | .request r =>
    if r.code = 1 then .pub (newBoxName r.boxName)
    else if r.code = 2 then .sub (newBoxName r.boxName)
    else if r.code = 3 then .create (newBoxName r.boxName)
    else if r.code = 5 then .remove (newBoxName r.boxName)
    else .idle
  | .listing _ => .list
  | .unknown _ => .idle

/-- What a worker writes to its client's pipe. -/
inductive Output
  /-- The string "test" that tells a subscriber it was accepted. -/
  | test
  | message (text : CString)
  | response (r : BoxResponse)
  | listing (r : ListingResponse)
  deriving DecidableEq

structure Broker where
  fs : State
  boxList : BoxList
  numThreads : Nat
  phase : Nat → Phase
  fullBoxBuffer : Nat → Mem
  /-- What each worker has written for the request at hand. -/
  output : Nat → List Output

namespace Broker

/-- The broker before the first request. -/
structure Started (b : Broker) : Prop where
  fs : ∃ m, tfsInit m .static none = .ok (0, b.fs)
  boxList : b.boxList = .empty
  phase : ∀ w, b.phase w = .idle

/-- What `tfs_init(NULL)` leaves when `malloc` gives zeros. -/
def initialFs : State := (tfsInit .zeros .static none).toOption.elim .static Prod.snd

/-- A broker with empty buffers. -/
def start (numThreads : Nat) : Broker where
  fs := initialFs
  boxList := .empty
  numThreads := numThreads
  phase := fun _ => .idle
  fullBoxBuffer := fun _ _ => 0
  output := fun _ => []

def setPhase (b : Broker) (w : Nat) (phase : Phase) : Broker :=
  { b with phase := Function.update b.phase w phase }

@[simp] theorem setPhase_self (b : Broker) (w : Nat) (phase : Phase) : (b.setPhase w phase).phase w = phase :=
  Function.update_self _ _ _

theorem setPhase_ne (b : Broker) {v w : Nat} (phase : Phase) (h : v ≠ w) : (b.setPhase w phase).phase v = b.phase v :=
  Function.update_of_ne h _ _

def write (b : Broker) (w : Nat) (output : List Output) : Broker :=
  { b with output := Function.update b.output w (b.output w ++ output) }

def setBox (b : Broker) (p : Nat) (box : BoxData) : Broker := { b with boxList := b.boxList.setBox p box }

end Broker

/-! ## The pieces of the cases -/

/-- `sizeof(full_box_buffer)` -/
def sizeofFullBoxBuffer : Nat := 1024

/-- The messages that the loop over `full_box_buffer` sends, from `offset_aux` on, in at most `n` rounds. -/
def replayLoop (buffer : Mem) : Nat → Nat → List CString
  | 0, _ => []
  | n + 1, offsetAux =>
    if sizeofFullBoxBuffer < offsetAux then []
    else
      let (message, length) := removeFirstStringFromBuffer (buffer.ptr offsetAux) (sizeofFullBoxBuffer - 1)
      if length = 1 then [] else message :: replayLoop buffer n (offsetAux + length)

/-- `offset_aux` grows in every round. -/
def replay (buffer : Mem) : List CString := replayLoop buffer (sizeofFullBoxBuffer + 1) 0

/-- The message a subscriber is sent after a wake-up: the first string in the buffer. -/
def firstMessage (buffer : Mem) : CString := (removeFirstStringFromBuffer buffer (sizeofFullBoxBuffer - 1)).1

def createError : BoxResponse := ⟨4, -1, ascii "Erro a criar"⟩
def createOk : BoxResponse := ⟨4, 0, ascii ""⟩
def removeError : BoxResponse := ⟨6, -1, ascii "Erro a remover"⟩
def removeOk : BoxResponse := ⟨6, 0, ascii ""⟩

/-- The record for the box `box` at the address `p`. -/
def listingResponse (list : BoxList) (p : Nat) (box : BoxData) : ListingResponse where
  code := 8
  last := if some p = list.tail then 1 else 0
  boxName := removeStringsFromBuffer (box.mem.ptr 1) sizeofBoxName
  boxSize := box.boxSize
  nPublishers := box.nPublishers
  nSubscribers := box.nSubscribers

/-! ## Steps -/

/-- A step of the worker `w`. -/
inductive Event
  | take (w : Nat) (d : Dispatch.Decoded)
  | tfsOpen (w : Nat)
  | findBox (w : Nat)
  | test (w : Nat)
  | setPublishers (w : Nat)
  | readProbe (w : Nat)
  /-- The read of a message, with the text taken out of what was read. -/
  | readMessage (w : Nat) (message : CString)
  /-- The read returns 0. -/
  | readEnd (w : Nat)
  | publish (w : Nat)
  | resetPublishers (w : Nat)
  | countSubscriber (w : Nat)
  | readBox (w : Nat)
  | replay (w : Nat)
  | sample (w : Nat)
  | wake (w : Nat)
  /-- The write of a message to the subscriber's pipe, and whether it succeeds. -/
  | send (w : Nat) (written : Bool)
  | uncountSubscriber (w : Nat)
  /-- `malloc` returns `addr`, where the memory holds `contents`. -/
  | insert (w addr : Nat) (contents : Mem)
  | tfsUnlink (w : Nat)
  | deleteBox (w : Nat)
  | respond (w : Nat)
  | lockList (w : Nat)
  | listBox (w : Nat)

namespace Broker

/-- A call of `tfs_open`, and where the worker goes with the handle. -/
def openBox (b : Broker) (w : Nat) (name : CString) (mode : Nat) (next : Int → Phase) : Option Broker :=
  match Fs.tfsOpen b.fs (some name) mode with
  | .ok (fileHandle, fs) => some ({ b with fs := fs }.setPhase w (next fileHandle))
  | .error _ => none

/-- A call of `find_box` under `box_list_lock`. -/
def find (b : Broker) (w : Nat) (name : CString) (next : Option Nat → Phase) : Option Broker :=
  if b.boxList.boxListLock then none
  else (findBox b.boxList b.boxList.head name).map fun boxData => b.setPhase w (next boxData)

/-- One access to the box of a session. -/
def access (b : Broker) (w : Nat) (s : Session) (update : BoxData → BoxData) (next : BoxData → Phase) :
    Option Broker :=
  (b.boxList.heap s.boxData).map fun box => (b.setBox s.boxData (update box)).setPhase w (next box)

/-- A call of `tfs_read` into `full_box_buffer`; a worker that gets -1 exits the process. -/
def readBox (b : Broker) (w : Nat) (s : Session) (next : Phase) : Option Broker :=
  match Fs.tfsRead b.fs s.fileHandle sizeofFullBoxBuffer with
  | .ok (bytesRead, data, fs) =>
    if bytesRead < 0 then none
    else
      some ({ b with
        fs := fs
        fullBoxBuffer := Function.update b.fullBoxBuffer w
          ((b.fullBoxBuffer w).copy 0 (Mem.ofList data) data.length) }.setPhase w next)
  | .error _ => none

/-- The section of a publisher under `box_condvar_lock`. It leaves the lock taken when it breaks off. -/
def publish (b : Broker) (w : Nat) (s : Session) (message : CString) : Option Broker := do
  let box ← b.boxList.heap s.boxData
  if box.boxCondvarLock then none
  else
    match Fs.tfsWrite b.fs s.fileHandle message.mem (message.strlen + 1) with
    | .ok (bytesWritten, fs) =>
      if bytesWritten ≤ 0 then
        some (({ b with fs := fs }.setBox s.boxData { box with boxCondvarLock := true }).setPhase w (.pubEnding s))
      else
        some (({ b with fs := fs }.setBox s.boxData
          { box with boxSize := toSize (box.boxSize + message.strlen) }).setPhase w (.pubReading s))
    | .error _ => none

/-- The section of a subscriber under `box_condvar_lock`, once it does not have to wait. -/
def wake (b : Broker) (w : Nat) (s : Session) (lastSize : Nat) : Option Broker := do
  let box ← b.boxList.heap s.boxData
  if box.boxCondvarLock ∨ box.boxSize = lastSize then none
  else b.readBox w s (.subSending s box.boxSize)

/-- The test of a publisher reads `n_publishers` only if there is a box and a handle. -/
def testPublisher (b : Broker) (w : Nat) (name : CString) (fileHandle : Int) (boxData : Option Nat) : Option Broker :=
  match boxData with
  | none => some (b.setPhase w .idle)
  | some p =>
    if fileHandle < 0 then some (b.setPhase w .idle)
    else (b.boxList.heap p).map fun box =>
      b.setPhase w (if box.nPublishers = 0 then .pubAccepted ⟨name, fileHandle, p⟩ else .idle)

def testSubscriber (b : Broker) (w : Nat) (name : CString) (boxData : Option Nat) (fileHandle : Int) : Broker :=
  match boxData with
  | none => b.setPhase w .idle
  | some p => b.setPhase w (if 0 < fileHandle then .subAccepted ⟨name, fileHandle, p⟩ else .idle)

end Broker

/-- The step of a worker; `none` if it cannot take it now. -/
def step (b : Broker) : Event → Option Broker
  | .take w d =>
    match b.phase w with
    | .idle =>
      if w < b.numThreads ∧ d.Fits then
        some ({ b with output := Function.update b.output w [] }.setPhase w (.start d))
      else none
    | _ => none
  | .tfsOpen w =>
    match b.phase w with
    | .pub name => b.openBox w name tfsOAppend fun h => .pubOpened name h
    | .subFound name boxData => b.openBox w name 0 fun h => .subOpened name boxData h
    | .create name => b.openBox w name tfsOCreat fun create =>
        if create = -1 then .responding createError else .created name
    | _ => none
  | .findBox w =>
    match b.phase w with
    | .pubOpened name h => b.find w name fun boxData => .pubFound name h boxData
    | .sub name => b.find w name fun boxData => .subFound name boxData
    | _ => none
  | .test w =>
    match b.phase w with
    | .pubFound name h boxData => b.testPublisher w name h boxData
    | .subOpened name boxData h => some (b.testSubscriber w name boxData h)
    | _ => none
  | .setPublishers w =>
    match b.phase w with
    | .pubAccepted s => b.access w s (fun box => { box with nPublishers := 1 }) fun _ => .pubTesting s
    | _ => none
  | .readProbe w =>
    match b.phase w with
    | .pubTesting s => some (b.setPhase w (.pubReading s))
    | _ => none
  | .readMessage w message =>
    match b.phase w with
    | .pubReading s => if message.strlen ≤ sizeofText then some (b.setPhase w (.pubWriting s message)) else none
    | _ => none
  | .readEnd w =>
    match b.phase w with
    | .pubReading s => some (b.setPhase w (.pubEnding s))
    | _ => none
  | .publish w =>
    match b.phase w with
    | .pubWriting s message => b.publish w s message
    | _ => none
  | .resetPublishers w =>
    match b.phase w with
    | .pubEnding s => b.access w s (fun box => { box with nPublishers := 0 }) fun _ => .idle
    | _ => none
  | .countSubscriber w =>
    match b.phase w with
    | .subAccepted s =>
      (b.write w [.test]).access w s (fun box => { box with nSubscribers := toSize (box.nSubscribers + 1) }) fun _ =>
        .subCounted s
    | _ => none
  | .readBox w =>
    match b.phase w with
    | .subCounted s => b.readBox w s (.subRead s)
    | _ => none
  | .replay w =>
    match b.phase w with
    | .subRead s =>
      some ((b.write w ((Sessions.replay (b.fullBoxBuffer w)).map .message)).setPhase w (.subReplayed s))
    | _ => none
  | .sample w =>
    match b.phase w with
    | .subReplayed s => b.access w s id fun box => .subWaiting s box.boxSize
    | _ => none
  | .wake w =>
    match b.phase w with
    | .subWaiting s lastSize => b.wake w s lastSize
    | _ => none
  | .send w written =>
    match b.phase w with
    | .subSending s lastSize =>
      if written then
        some ((b.write w [.message (firstMessage (b.fullBoxBuffer w))]).setPhase w (.subWaiting s lastSize))
      else some (b.setPhase w (.subEnding s))
    | _ => none
  | .uncountSubscriber w =>
    match b.phase w with
    | .subEnding s =>
      b.access w s (fun box => { box with nSubscribers := sizeSub box.nSubscribers 1 }) fun _ => .idle
    | _ => none
  | .insert w addr contents =>
    match b.phase w, b.boxList.heap addr with
    | .created name, none =>
      if b.boxList.boxListLock then none
      else some ({ b with boxList := insertAtBeginning b.boxList addr contents name 0 0 0 }.setPhase w
        (.responding createOk))
    | _, _ => none
  | .tfsUnlink w =>
    match b.phase w with
    | .remove name =>
      match Fs.tfsUnlink b.fs (some name) with
      | .ok (remove, fs) =>
        some ({ b with fs := fs }.setPhase w (if remove = -1 then .responding removeError else .removed name))
      | .error _ => none
    | _ => none
  | .deleteBox w =>
    match b.phase w with
    | .removed name =>
      if b.boxList.boxListLock then none
      else (Protocol.deleteBox b.boxList name).map fun list =>
        { b with boxList := list }.setPhase w (.responding removeOk)
    | _ => none
  | .respond w =>
    match b.phase w with
    | .responding response => some ((b.write w [.response response]).setPhase w .idle)
    | _ => none
  | .lockList w =>
    match b.phase w with
    | .list =>
      if b.boxList.boxListLock then none
      else some ({ b with boxList := { b.boxList with boxListLock := true } }.setPhase w (.listing b.boxList.head))
    | _ => none
  | .listBox w =>
    match b.phase w with
    | .listing (some p) =>
      (b.boxList.heap p).map fun box =>
        (b.write w [.listing (listingResponse b.boxList p box)]).setPhase w (.listing box.next)
    | .listing none => some ({ b with boxList := { b.boxList with boxListLock := false } }.setPhase w .idle)
    | _ => none

def Step (b : Broker) (e : Event) (b' : Broker) : Prop := step b e = some b'

theorem Step.of_step (b : Broker) (e : Event) (b' : Broker) (h : step b e = some b') : Step b e b' := h

end Mbroker.Sessions
