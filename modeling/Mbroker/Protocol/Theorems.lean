import Mbroker.Protocol.BoxSort
import Mbroker.Protocol.BoxStacks
import Mbroker.Protocol.Wire

/-!
# The functions of the protocol

What the receivers take out of the records that are sent to them, which box a name stands for in the list, and what
the sort of the boxes does with one.
-/

namespace Mbroker.Protocol

open Mbroker.Lib

/-! ## Records -/

/-- A receiver takes out of each record what was put in, whatever its structs and the buffers held before. `rest` is
what else waits in the pipe. -/
theorem receivers_agree (m stale : Mem) (lo : Nat) (rest : List UInt8) :
    (∀ (r : Request) (request : Raw.Request), r.clientNamedPipePath.strlen < sizeofPipePath →
      r.boxName.strlen < sizeofBoxName →
      let taken := takeRequest ((readPipe m lo sizeofRequest (sendRequest r ++ rest)).ptr lo) request
      taken.code = r.code ∧ taken.clientNamedPipePath.IsStr r.clientNamedPipePath.chars ∧
        taken.boxName.IsStr r.boxName.chars) ∧
    (∀ (path : CString) (request : Raw.ListingRequest), path.strlen < sizeofPipePath →
      let taken := takeListingRequest ((readPipe m lo sizeofRequest (sendListingRequest path ++ rest)).ptr lo) request
      taken.code = listingCode ∧ taken.clientNamedPipePath.IsStr path.chars) ∧
    (∀ (r : BoxResponse) (response : Raw.BoxResponse), -2 ^ 31 ≤ r.returnCode → r.returnCode < 2 ^ 31 →
      r.errorMessage.strlen < sizeofErrorMessage →
      let buffer := (readPipe m lo sizeofBoxResponse (sendBoxResponse stale r ++ rest)).ptr lo
      (takeBoxResponse buffer response).code = r.code ∧ readInt32 (buffer.ptr 1) = r.returnCode ∧
        (r.code = 4 ∨ r.code = 6 → (takeBoxResponse buffer response).returnCode = r.returnCode ∧
          (r.returnCode = -1 → (takeBoxResponse buffer response).errorMessage.IsStr r.errorMessage.chars))) ∧
    ∀ (code : UInt8) (text : CString) (message : Raw.Message), text.strlen < sizeofText →
      let taken := takeMessage ((readPipe m lo sizeofMessage (sendMessage code text ++ rest)).ptr lo) message
      taken.code = code ∧ taken.message.IsStr text.chars := by
  have hread : ∀ {n : Nat} {record : List UInt8}, record.length ≤ n →
      ((readPipe m lo n (record ++ rest)).ptr lo).bytes record.length = record := fun h => bytes_readPipe h rest
  refine ⟨fun r request hpath hbox => ?_, fun path request hpath => ?_, fun r response hlo hhi herror => ?_,
    fun code text message htext => ?_⟩
  · have hbytes := hread (length_sendRequest r).le
    rw [length_sendRequest] at hbytes
    exact takeRequest_sendRequest hpath hbox hbytes request
  · have hlen : (sendListingRequest path).length ≤ sizeofRequest := by
      rw [length_sendListingRequest]
      decide
    have hbytes := hread hlen
    rw [length_sendListingRequest] at hbytes
    exact takeListingRequest_sendListingRequest hpath hbytes request
  · have hlen : (sendBoxResponse stale r).length = sizeofBoxResponse := Mem.length_bytes _ _
    have hbytes := hread hlen.le
    rw [hlen] at hbytes
    exact takeBoxResponse_sendBoxResponse hlo hhi herror hbytes response
  · have hbytes := hread (length_sendMessage code text).le
    rw [length_sendMessage] at hbytes
    exact takeMessage_sendMessage htext hbytes message

/-- A creation that failed, and a struct and buffers that held other bytes. -/
theorem receivers_agree_error :
    let buffer := (readPipe (fun _ => 1) 0 sizeofBoxResponse
      (sendBoxResponse (fun _ => 2) ⟨4, -1, ascii "Erro a criar"⟩ ++ [])).ptr 0
    (takeBoxResponse buffer ⟨3, 3, fun _ => 3⟩).returnCode = -1 ∧
      (takeBoxResponse buffer ⟨3, 3, fun _ => 3⟩).errorMessage.IsStr (ascii "Erro a criar").chars := by
  obtain ⟨-, -, hresponse, -⟩ := receivers_agree (fun _ => 1) (fun _ => 2) 0 []
  obtain ⟨-, -, hknown⟩ := hresponse ⟨4, -1, ascii "Erro a criar"⟩ ⟨3, 3, fun _ => 3⟩
    (show -2 ^ 31 ≤ (-1 : Int) by omega) (show (-1 : Int) < 2 ^ 31 by omega) (by decide)
  obtain ⟨hret, herror⟩ := hknown (Or.inl rfl)
  exact ⟨hret, herror rfl⟩

/-- Of what is received, whatever it is, every string is taken out inside its array exactly if each of the fields
holds a NUL. -/
theorem strings_inside_iff (received : Received) (buffer : Mem) :
    (∀ field ∈ received.stringFields buffer, field.Inside buffer) ↔
      ∀ field ∈ received.stringFields buffer, field.Terminated buffer := by
  constructor
  · intro h field hfield
    exact StringField.inside_iff.mp (h field hfield)
  · intro h field hfield
    exact StringField.inside_iff.mpr (h field hfield)

/-- A creation request whose `box_name` holds 32 characters. -/
def fullRequest : Mem := Mem.ofList (3 :: (storeStringInBuffer (ascii "pipe") sizeofPipePath ++ List.replicate 32 97))

/-- The NUL is written behind `request.box_name`. -/
theorem string_outside : boxNameField ∈ Received.request.stringFields fullRequest ∧
    (sizeofBoxName, 0) ∈ removeStringsWrites (fullRequest.ptr boxNameField.offset) boxNameField.space ∧
    ¬ ∀ field ∈ Received.request.stringFields fullRequest, field.Inside fullRequest := by
  have hfield : boxNameField ∈ Received.request.stringFields fullRequest := by decide +kernel
  have hwrite : (sizeofBoxName, 0) ∈ removeStringsWrites (fullRequest.ptr boxNameField.offset) boxNameField.space := by
    decide +kernel
  refine ⟨hfield, hwrite, fun h => ?_⟩
  exact absurd (h boxNameField hfield _ hwrite) (by decide)

/-! ## Lookups -/

/-- After every sequence of calls, `find_box` finds the box on top of the stack of the name, which is as it was
inserted, or none if the stack is empty; `delete_box` takes out just this box, or none, and all others keep their
fields and their order. -/
theorem boxList_stacks {cs : List ListCall} {list : BoxList}
    (h : Steps (Guarded (fun _ c => c.NameFits) BoxList.Called) .empty cs list) (n : CString) :
    findBox list list.head n = some (((ListCall.stacksOf cs).top n).map Inserted.addr) ∧
      (∀ x ∈ (ListCall.stacksOf cs).top n, list.KeepsBox (n, x)) ∧
      ∃ list', deleteBox list n = some list' ∧ ((ListCall.stacksOf cs).top n = none → list' = list) ∧
        ∀ x ∈ (ListCall.stacksOf cs).top n, ∃ l r, list.Chain (l ++ x.addr :: r) ∧ list'.Chain (l ++ r) ∧
          ∀ p ∈ l ++ r, BoxList.SameBox list list' p := by
  obtain ⟨xs, hkept, hstacks⟩ := BoxList.kept_of_steps h
  obtain ⟨list', hdelete, hkept', hsame, habsent⟩ := hkept.deleteBox n
  rw [← hstacks]
  refine ⟨hkept.findBox n, fun x hx => ?_, list', hdelete, habsent, fun x hx => ?_⟩
  · obtain ⟨l, r, rfl, -⟩ := Stacks.top_eq_some hx
    exact hkept.boxes _ (by simp)
  · obtain ⟨l, r, rfl, herase⟩ := Stacks.top_eq_some hx
    rw [herase] at hkept' hsame
    refine ⟨l.map fun x => x.2.addr, r.map fun x => x.2.addr, by simpa using hkept.chain,
      by simpa using hkept'.chain, fun p hp => ?_⟩
    rw [← List.map_append] at hp
    obtain ⟨y, hy, rfl⟩ := List.mem_map.mp hp
    exact hsame y hy

/-- Two boxes of each of two names are inserted, and one is deleted. -/
def repeatedNames : List ListCall :=
  [.insert 0 (fun _ => 1) (ascii "/a") 1 0 0, .insert 1 (fun _ => 1) (ascii "/b") 2 0 0,
    .insert 2 (fun _ => 1) (ascii "/a") 3 0 0, .insert 3 (fun _ => 1) (ascii "/b") 4 0 0, .delete (ascii "/a")]

theorem boxList_stacks_repeated : ∃ list, Steps BoxList.Called .empty repeatedNames list ∧
    findBox list list.head (ascii "/a") = some (some 0) ∧ findBox list list.head (ascii "/c") = some none ∧
    ∃ list', deleteBox list (ascii "/b") = some list' ∧
      ∃ l r, list.Chain (l ++ 3 :: r) ∧ list'.Chain (l ++ r) ∧ ∀ p ∈ l ++ r, BoxList.SameBox list list' p := by
  have hnext : ∀ list c list', BoxList.call list c = some list' → BoxList.Called list c list' := fun _ _ _ h => h
  obtain ⟨list, hrun, -⟩ := exists_guarded (fun _ c => c.NameFits) (fun _ => True) hnext .empty repeatedNames
    (by decide +kernel)
  obtain ⟨hfound, -⟩ := boxList_stacks hrun (ascii "/a")
  obtain ⟨hnull, -⟩ := boxList_stacks hrun (ascii "/c")
  obtain ⟨-, -, list', hdelete, -, htop⟩ := boxList_stacks hrun (ascii "/b")
  exact ⟨list, hrun.mono fun _ _ _ hs => hs.2, hfound, hnull, list', hdelete, htop ⟨3, 4, 0, 0⟩ rfl⟩

/-! ## Sorting -/

/-- The sort ends, and its result is a list of the same nodes, all fields but the pointers as they were, in which no
name is greater than one behind it, in the order of `strcmp` where that has its NUL. -/
theorem mergeSortBoxdataList_sorts {heap : Nodes} {head : Option Nat} {ps : List Nat}
    (h : Seg heap BoxData.next head ps none) :
    ∃ heap' head' ps', (∀ n, ps.length < n → mergeSortBoxdataList n heap head = some (heap', head')) ∧
      Seg heap' BoxData.next head' ps' none ∧ ps'.Perm ps ∧
      (∀ p box, heap p = some box → ∃ next, heap' p = some { box with next := next }) ∧
      (∀ p ∉ ps, heap' p = heap p) ∧
      ps'.Pairwise fun p q => ∀ left ∈ heap' p, ∀ right ∈ heap' q, strcmpNames left right ≤ 0 ∧
        ∀ n, right.HasName n → strcmp left.mem n ≤ 0 := by
  obtain ⟨heap', head', ps', hsort, hseg, hperm, hord, hsame, hframe⟩ := mergeSortBoxdataList_eq h
  refine ⟨heap', head', ps', hsort, hseg, hperm, fun p box hp => hsame.get hp, hframe, ?_⟩
  rw [← hsame.le_eq] at hord
  refine hord.imp fun {p q} hle left hl right hr => ?_
  have hnames := (Nodes.le_iff hl hr).mp hle
  exact ⟨hnames, fun n hn => strcmpNames_eq hn ▸ hnames⟩

/-- Three boxes, two of them of one name. -/
def unsorted : BoxList :=
  insertAtBeginning (insertAtBeginning (insertAtBeginning .empty 0 (fun _ => 0) (ascii "b") 1 0 0) 1 (fun _ => 0)
    (ascii "a") 2 0 0) 2 (fun _ => 0) (ascii "b") 3 0 0

theorem unsorted_holds : unsorted.Holds [2, 1, 0] :=
  ((BoxList.empty_holds.insert rfl).insert rfl).insert rfl

theorem mergeSortBoxdataList_sorts_unsorted : ∃ heap' head' ps',
    mergeSortBoxdataList 4 unsorted.heap unsorted.head = some (heap', head') ∧
      Seg heap' BoxData.next head' ps' none ∧ ps'.Perm [2, 1, 0] ∧
      BoxList.boxNamesLoop heap' 4 head' = [ascii "a", ascii "b", ascii "b"] := by
  obtain ⟨heap', head', ps', hsort, hseg, hperm, -⟩ := mergeSortBoxdataList_sorts unsorted_holds.seg
  have hnames : (mergeSortBoxdataList 4 unsorted.heap unsorted.head).map
      (fun r => BoxList.boxNamesLoop r.1 4 r.2) = some [ascii "a", ascii "b", ascii "b"] := by decide +kernel
  have hsort := hsort 4 (by decide)
  rw [hsort, Option.map_some, Option.some.injEq] at hnames
  exact ⟨heap', head', ps', hsort, hseg, hperm, hnames⟩

end Mbroker.Protocol
