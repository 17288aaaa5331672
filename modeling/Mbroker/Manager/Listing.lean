import Mbroker.Protocol.ListCalls
import Mbroker.Protocol.Wire
import Mbroker.Sessions.Listing

/-!
# A listing

The loop of case 7 at one end of a pipe and `manager/manager.c` at the other, from the time when both have opened it
to the sort. The worker holds `box_list_lock`; it writes a record at a time, and a read gets `sizeof(ListingResponse)`
bytes or those that are there.
-/

namespace Mbroker.Manager

open Mbroker.Lib Mbroker.Protocol Mbroker.Sessions

/-! ## The state -/

inductive WorkerPhase
  /-- At the test of the loop. -/
  | listing (boxData : Option Nat)
  | closed
  deriving DecidableEq

inductive ClientPhase
  /-- At the first read. -/
  | first
  /-- At the read in the loop. -/
  | reading
  /-- At the sort. -/
  | sorting
  /-- Behind "NO BOXES FOUND". -/
  | noBoxes
  deriving DecidableEq

/-- The last read returned 0. -/
def ClientPhase.Done : ClientPhase → Prop
  | sorting | noBoxes => True
  | _ => False

instance : DecidablePred ClientPhase.Done
  | .sorting | .noBoxes => isTrue trivial
  | .first | .reading => isFalse id

structure Listing where
  boxList : BoxList
  worker : WorkerPhase
  listingBuffer : Mem
  pipe : List UInt8
  client : ClientPhase
  listingResponseBuffer : Mem
  listingResponse : Raw.ListingResponse
  boxListSort : BoxList

/-- The listing of `list` when both ends have opened the pipe. -/
structure Listing.Opened (s : Listing) (list : BoxList) : Prop where
  boxList : s.boxList = list
  worker : s.worker = .listing list.head
  pipe : s.pipe = []
  client : s.client = .first
  boxListSort : s.boxListSort = .empty

/-- A listing whose buffers hold zeros. -/
def Listing.start (list : BoxList) : Listing :=
  ⟨list, .listing list.head, fun _ => 0, [], .first, fun _ => 0, ⟨0, 0, fun _ => 0, 0, 0, 0⟩, .empty⟩

theorem Listing.start_opened (list : BoxList) : (Listing.start list).Opened list := ⟨rfl, rfl, rfl, rfl, rfl⟩

/-! ## Steps -/

/-- What the manager does with what it has read: `malloc` returns `addr`, where the memory holds `contents`. -/
def Listing.take (s : Listing) (addr : Nat) (contents : Mem) : Listing :=
  let response := takeListingResponse s.listingResponseBuffer s.listingResponse
  { s with
    client := .reading
    listingResponse := response
    boxListSort :=
      if response.code = 8 then
        insertAtBeginning s.boxListSort addr contents (listingNameField.string s.listingResponseBuffer) response.boxSize
          response.nPublishers response.nSubscribers
      else s.boxListSort }

inductive Event
  /-- The worker writes the next record. -/
  | write
  /-- The worker is through with the list and closes the pipe. -/
  | close
  /-- A read of the manager returns the bytes that are there. -/
  | read (addr : Nat) (contents : Mem)
  /-- A read of the manager returns 0. -/
  | eof

/-- The step of the worker or of the manager; `none` if it cannot take it now. -/
def step (s : Listing) : Event → Option Listing
  | .write =>
    match s.worker with
    | .listing (some boxData) =>
      (s.boxList.heap boxData).map fun box =>
        let listingBuffer := fillListingBuffer s.listingBuffer (listingResponse s.boxList boxData box)
        { s with
          worker := .listing box.next
          listingBuffer := listingBuffer
          pipe := s.pipe ++ listingBuffer.bytes sizeofListingResponse }
    | _ => none
  | .close =>
    match s.worker with
    | .listing none => some { s with worker := .closed }
    | _ => none
  | .read addr contents =>
    if s.pipe = [] ∨ s.client.Done ∨ s.boxListSort.heap addr ≠ none then none
    else
      let s' := { s with
        listingResponseBuffer := readPipe s.listingResponseBuffer 0 sizeofListingResponse s.pipe
        pipe := s.pipe.drop sizeofListingResponse }
      some (s'.take addr contents)
  | .eof =>
    if s.pipe = [] ∧ s.worker = .closed then
      match s.client with
      | .first => some { s with client := .noBoxes }
      | .reading => some { s with client := .sorting }
      | _ => none
    else none

def Step (s : Listing) (e : Event) (s' : Listing) : Prop := step s e = some s'

theorem Step.of_step (s : Listing) (e : Event) (s' : Listing) (h : step s e = some s') : Step s e s' := h

end Mbroker.Manager
