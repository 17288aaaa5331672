import Mbroker.Lib.Pipe
import Mbroker.Protocol.Messages

/-!
# The bytes of the records

How the programs take the records of the protocol out of their buffers, and the two records whose structs are padded:
their buffers are as long as the structs, their fields are packed, and the last bytes are never written. Here a
`char` array is the memory it starts at, so that what lies behind it can be written too.
-/

namespace Mbroker.Protocol

open Mbroker.Lib

/-! ## Strings in memory -/

/-- The assignments to `str1[i]` in `remove_strings_from_buffer`, from the character `i` on, with `n` rounds left. -/
def removeStringsLoop (buffer : Mem) : Nat → Nat → List (Nat × UInt8)
  | i, 0 => [(i, 0)]
  | i, n + 1 => if buffer i = 0 then [(i, 0)] else (i, buffer i) :: removeStringsLoop buffer (i + 1) n

/-- All bytes that `remove_strings_from_buffer` writes, in order. -/
def removeStringsWrites (buffer : Mem) (space : Nat) : List (Nat × UInt8) := removeStringsLoop buffer 0 space

def writeAll (m : Mem) (writes : List (Nat × UInt8)) : Mem :=
  writes.foldl (fun m w => Function.update m w.1 w.2) m

/-- The memory at `str1` after `remove_strings_from_buffer`. -/
def removeStringsInto (buffer str1 : Mem) (space : Nat) : Mem := writeAll str1 (removeStringsWrites buffer space)

variable {buffer m str1 : Mem} {s : CString} {n i j space : Nat}

theorem strlen_removeStringsFromBuffer_succ :
    (removeStringsFromBuffer buffer (n + 1)).strlen =
      if buffer 0 = 0 then 0 else (removeStringsFromBuffer (buffer.ptr 1) n).strlen + 1 := by
  simp only [removeStringsFromBuffer, CString.strlen, Mem.bytes_succ]
  by_cases h0 : buffer 0 = 0
  · simp [h0]
  · simp [h0]

/-- The characters before the first NUL are written, and a NUL behind them. -/
theorem removeStringsLoop_eq (buffer : Mem) (i n : Nat) :
    removeStringsLoop buffer i n =
      (List.range (removeStringsFromBuffer (buffer.ptr i) n).strlen).map (fun j => (i + j, buffer (i + j))) ++
        [(i + (removeStringsFromBuffer (buffer.ptr i) n).strlen, 0)] := by
  induction n generalizing i with
  | zero => rfl
  | succ n ih =>
      rw [removeStringsLoop, strlen_removeStringsFromBuffer_succ]
      by_cases h0 : buffer i = 0
      · simp [h0]
      · have hptr : (buffer.ptr i).ptr 1 = buffer.ptr (i + 1) := Mem.ptr_ptr buffer i 1
        simp only [if_neg h0, ih (i + 1), Mem.ptr_apply, Nat.add_zero, hptr, List.range_succ_eq_map, List.map_cons,
          List.map_map, List.cons_append]
        congr 2
        · refine List.map_congr_left fun j _ => ?_
          simp only [Function.comp_apply, Nat.succ_eq_add_one, Nat.add_comm j 1, Nat.add_assoc]
        · congr 2
          omega

theorem writeAll_cons (w : Nat × UInt8) (ws : List (Nat × UInt8)) :
    writeAll m (w :: ws) = writeAll (Function.update m w.1 w.2) ws := rfl

theorem writeAll_of_not_mem {ws : List (Nat × UInt8)} (h : ∀ w ∈ ws, w.1 ≠ j) : writeAll m ws j = m j := by
  induction ws generalizing m with
  | nil => rfl
  | cons w ws ih =>
      rw [writeAll_cons, ih fun w' hw' => h w' (List.mem_cons_of_mem _ hw')]
      exact Function.update_of_ne (h w List.mem_cons_self).symm _ _

theorem writeAll_loop (hj : i ≤ j) (hj' : j ≤ i + (removeStringsFromBuffer (buffer.ptr i) n).strlen) :
    writeAll m (removeStringsLoop buffer i n) j =
      if j < i + (removeStringsFromBuffer (buffer.ptr i) n).strlen then buffer j else 0 := by
  induction n generalizing i m with
  | zero =>
      have hij : j = i := le_antisymm hj' hj
      subst hij
      have hnil : (removeStringsFromBuffer (buffer.ptr j) 0).strlen = 0 := rfl
      simp [removeStringsLoop, writeAll, hnil]
  | succ n ih =>
      have hptr : (buffer.ptr i).ptr 1 = buffer.ptr (i + 1) := Mem.ptr_ptr buffer i 1
      simp only [strlen_removeStringsFromBuffer_succ, hptr, Mem.ptr_apply, Nat.add_zero] at hj' ⊢
      rw [removeStringsLoop]
      by_cases h0 : buffer i = 0
      · rw [if_pos h0] at hj' ⊢
        rw [if_pos h0]
        have hij : j = i := le_antisymm hj' hj
        subst hij
        simp [writeAll]
      · rw [if_neg h0] at hj' ⊢
        rw [if_neg h0, writeAll_cons]
        by_cases hij : j = i
        · subst hij
          rw [if_pos (by omega), writeAll_of_not_mem, Function.update_self]
          rw [removeStringsLoop_eq]
          simp only [List.mem_append, List.mem_map, List.mem_singleton]
          rintro w (⟨k, -, rfl⟩ | rfl)
          · simp only
            omega
          · simp only
            omega
        · rw [ih (by omega) (by omega)]
          congr 1
          exact propext (by omega)

/-- What `remove_strings_from_buffer` leaves at `str1` is the string, whatever was there. -/
theorem removeStringsInto_isStr (buffer str1 : Mem) (space : Nat) :
    (removeStringsInto buffer str1 space).IsStr (removeStringsFromBuffer buffer space).chars := by
  intro j hj
  have hptr : buffer.ptr 0 = buffer := Mem.ptr_zero buffer
  have hloop := @writeAll_loop buffer str1 space 0 j (Nat.zero_le j) (by rw [hptr, Nat.zero_add]; exact hj)
  rw [hptr, Nat.zero_add] at hloop
  rw [removeStringsInto, removeStringsWrites, hloop]
  have hpre : (removeStringsFromBuffer buffer space).chars <+: buffer.bytes space := List.takeWhile_prefix _
  by_cases hlt : j < (removeStringsFromBuffer buffer space).chars.length
  · have hget := hpre.getElem hlt
    rw [CString.strlen, if_pos hlt, List.getD_eq_getElem?_getD, List.getElem?_eq_getElem hlt, Option.getD_some, hget]
    simp [Mem.bytes]
  · rw [CString.strlen, if_neg hlt, List.getD_eq_getElem?_getD, List.getElem?_eq_none (not_lt.mp hlt), Option.getD_none]

theorem strlen_removeStringsFromBuffer_lt :
    (removeStringsFromBuffer buffer space).strlen < space ↔ ∃ i < space, buffer i = 0 := by
  constructor
  · intro hlt
    induction space generalizing buffer with
    | zero => cases hlt
    | succ n ih =>
        rw [strlen_removeStringsFromBuffer_succ] at hlt
        by_cases h0 : buffer 0 = 0
        · exact ⟨0, Nat.succ_pos n, h0⟩
        · rw [if_neg h0] at hlt
          obtain ⟨i, hi, hnul⟩ := ih (Nat.lt_of_succ_lt_succ hlt)
          exact ⟨1 + i, by omega, hnul⟩
  · rintro ⟨i, hi, hnul⟩
    exact lt_of_le_of_lt (removeStringsFromBuffer_le_of_nul hnul) hi

/-- All that is written lies within the `space` bytes from `str1` on exactly if there is a NUL among the `space` bytes
that are looked at. -/
theorem writes_inside_iff : (∀ w ∈ removeStringsWrites buffer space, w.1 < space) ↔ ∃ i < space, buffer i = 0 := by
  have hptr : buffer.ptr 0 = buffer := Mem.ptr_zero buffer
  rw [← strlen_removeStringsFromBuffer_lt, removeStringsWrites, removeStringsLoop_eq, hptr]
  constructor
  · intro h
    have hlast := h (0 + (removeStringsFromBuffer buffer space).strlen, 0) (by simp)
    rwa [Nat.zero_add] at hlast
  · intro hlt w hw
    simp only [List.mem_append, List.mem_map, List.mem_range, List.mem_singleton] at hw
    rcases hw with ⟨j, hj, rfl⟩ | rfl
    · simp only
      omega
    · simpa using hlt

/-! ## Fields -/

/-- A field of a buffer that `remove_strings_from_buffer` is called for: where it is, and `sizeof` of the array that
it is taken out to. -/
structure StringField where
  offset : Nat
  space : Nat
  deriving DecidableEq

namespace StringField

/-- The array after the call. -/
def take (field : StringField) (buffer str1 : Mem) : Mem := removeStringsInto (buffer.ptr field.offset) str1 field.space

/-- The string that is in the array then. -/
def string (field : StringField) (buffer : Mem) : CString :=
  removeStringsFromBuffer (buffer.ptr field.offset) field.space

theorem take_isStr_string (field : StringField) (buffer str1 : Mem) :
    (field.take buffer str1).IsStr (field.string buffer).chars := removeStringsInto_isStr _ _ _

/-- All that the call writes is inside the array. -/
def Inside (field : StringField) (buffer : Mem) : Prop :=
  ∀ w ∈ removeStringsWrites (buffer.ptr field.offset) field.space, w.1 < field.space

/-- The bytes of the field hold a NUL. -/
def Terminated (field : StringField) (buffer : Mem) : Prop := ∃ i < field.space, buffer (field.offset + i) = 0

theorem inside_iff {field : StringField} : field.Inside buffer ↔ field.Terminated buffer := writes_inside_iff

end StringField

/-! ## The structs -/

/-- `sizeof(error_message)` -/
def sizeofErrorMessage : Nat := 1024

/-- `sizeof(Box_Response)`: three bytes of padding stand before `return_code`. -/
def sizeofBoxResponse : Nat := 1 + 3 + 4 + sizeofErrorMessage

/-- `sizeof(ListingResponse)`: six bytes of padding stand before `box_size`. -/
def sizeofListingResponse : Nat := 1 + 1 + sizeofBoxName + 6 + 8 + 8 + 8

namespace Raw

structure Request where
  code : UInt8
  clientNamedPipePath : Mem
  boxName : Mem

structure ListingRequest where
  code : UInt8
  clientNamedPipePath : Mem

structure Message where
  code : UInt8
  message : Mem

structure BoxResponse where
  code : UInt8
  returnCode : Int
  errorMessage : Mem

structure ListingResponse where
  code : UInt8
  last : UInt8
  boxName : Mem
  boxSize : Nat
  nPublishers : Nat
  nSubscribers : Nat

end Raw

/-! ## Writing -/

/-- `store_string_in_buffer(buffer + offset, str1, space)` -/
def storeStringAt (buffer : Mem) (offset : Nat) (str1 : CString) (space : Nat) : Mem :=
  buffer.copy offset (Mem.ofList (storeStringInBuffer str1 space)) space

/-- `response_buffer` in `send_box_response`, which writes all of it. -/
def fillResponseBuffer (responseBuffer : Mem) (response : BoxResponse) : Mem :=
  let offset := 0
  let responseBuffer := responseBuffer.copy offset (fun _ => response.code) 1
  let offset := offset + 1
  let responseBuffer := responseBuffer.copy offset (int32Mem response.returnCode) 4
  let offset := offset + 4
  storeStringAt responseBuffer offset response.errorMessage sizeofErrorMessage

def sendBoxResponse (responseBuffer : Mem) (response : BoxResponse) : List UInt8 :=
  (fillResponseBuffer responseBuffer response).bytes sizeofBoxResponse

/-- `listing_buffer` in the loop of case 7, which writes all of it. -/
def fillListingBuffer (listingBuffer : Mem) (response : ListingResponse) : Mem :=
  let offset := 0
  let listingBuffer := listingBuffer.copy offset (fun _ => response.code) 1
  let offset := offset + 1
  let listingBuffer := listingBuffer.copy offset (fun _ => response.last) 1
  let offset := offset + 1
  let listingBuffer := storeStringAt listingBuffer offset response.boxName sizeofBoxName
  let offset := offset + sizeofBoxName
  let listingBuffer := listingBuffer.copy offset (leMem response.boxSize) 8
  let offset := offset + 8
  let listingBuffer := listingBuffer.copy offset (leMem response.nPublishers) 8
  let offset := offset + 8
  listingBuffer.copy offset (leMem response.nSubscribers) 8

/-! ## Taking apart -/

/-- Where `client_named_pipe_path` is in a request and in a list request. -/
def pathField : StringField := ⟨1, sizeofPipePath⟩

/-- Where `box_name` is in a request. -/
def boxNameField : StringField := ⟨1 + sizeofPipePath, sizeofBoxName⟩

/-- Where `message` is in a message. -/
def messageField : StringField := ⟨1, sizeofText⟩

/-- Where the manager looks for `error_message`. -/
def errorMessageField : StringField := ⟨1 + 4, sizeofErrorMessage⟩

/-- Where the manager looks for `box_name`. -/
def listingNameField : StringField := ⟨1 + 1, sizeofBoxName⟩

/-- The worker, in the cases 1, 2, 3 and 5; `code` is a variable of its own there. -/
def takeRequest (requestBuffer : Mem) (request : Raw.Request) : Raw.Request where
  code := requestBuffer 0
  clientNamedPipePath := pathField.take requestBuffer request.clientNamedPipePath
  boxName := boxNameField.take requestBuffer request.boxName

/-- The worker, in case 7. -/
def takeListingRequest (requestBuffer : Mem) (request : Raw.ListingRequest) : Raw.ListingRequest where
  code := requestBuffer 0
  clientNamedPipePath := pathField.take requestBuffer request.clientNamedPipePath

/-- The worker in case 1, and the subscriber. -/
def takeMessage (messageBuffer : Mem) (message : Raw.Message) : Raw.Message where
  code := messageBuffer 0
  message := messageField.take messageBuffer message.message

/-- The manager; it looks behind the code of an answer to a creation or a removal only, and for a message only
behind -1. -/
def takeBoxResponse (responseBuffer : Mem) (response : Raw.BoxResponse) : Raw.BoxResponse :=
  let response := { response with code := responseBuffer 0 }
  if response.code = 4 ∨ response.code = 6 then
    let response := { response with returnCode := readInt32 (responseBuffer.ptr 1) }
    if response.returnCode = 0 then response
    else if response.returnCode = -1 then
      { response with errorMessage := errorMessageField.take responseBuffer response.errorMessage }
    else response
  else response

/-- The manager; it looks behind the code of a listing only. -/
def takeListingResponse (listingResponseBuffer : Mem) (response : Raw.ListingResponse) : Raw.ListingResponse :=
  let offset := 0
  let response := { response with code := listingResponseBuffer offset }
  let offset := offset + 1
  if response.code = 8 then
    let last := listingResponseBuffer offset
    let offset := offset + 1 + sizeofBoxName
    { code := response.code
      last := last
      boxName := listingNameField.take listingResponseBuffer response.boxName
      boxSize := readLE (listingResponseBuffer.ptr offset) 8
      nPublishers := readLE (listingResponseBuffer.ptr (offset + 8)) 8
      nSubscribers := readLE (listingResponseBuffer.ptr (offset + 8 + 8)) 8 }
  else response

/-! ## What was written is taken out -/

variable {b : Mem} {rest : List UInt8} {lo : Nat}

theorem StringField.string_eq {field : StringField} (hs : s.strlen ≤ field.space)
    (h : (buffer.ptr field.offset).bytes field.space = storeStringInBuffer s field.space) :
    field.string buffer = s := by
  rw [string, removeStringsFromBuffer_store h, CString.truncate_of_le hs]

theorem StringField.take_isStr {field : StringField} (hs : s.strlen ≤ field.space)
    (h : (buffer.ptr field.offset).bytes field.space = storeStringInBuffer s field.space) (str1 : Mem) :
    (field.take buffer str1).IsStr s.chars := by
  have hstr := field.take_isStr_string buffer str1
  rw [field.string_eq hs h] at hstr
  exact hstr

theorem bytes_eq_append {l l' : List UInt8} (h : b.bytes (n + space) = l ++ l') (hl : l.length = n) :
    b.bytes n = l ∧ (b.ptr n).bytes space = l' := by
  rw [Mem.bytes_add] at h
  exact List.append_inj h (by rw [Mem.length_bytes, hl])

theorem takeRequest_sendRequest {r : Request} (hpath : r.clientNamedPipePath.strlen < sizeofPipePath)
    (hbox : r.boxName.strlen < sizeofBoxName) (h : b.bytes sizeofRequest = sendRequest r) (request : Raw.Request) :
    (takeRequest b request).code = r.code ∧
      (takeRequest b request).clientNamedPipePath.IsStr r.clientNamedPipePath.chars ∧
      (takeRequest b request).boxName.IsStr r.boxName.chars := by
  have hsize : sizeofRequest = (sizeofPipePath + sizeofBoxName) + 1 := rfl
  rw [hsize, Mem.bytes_succ, sendRequest, List.cons.injEq] at h
  obtain ⟨hcode, hfields⟩ := h
  obtain ⟨hp, hb⟩ := bytes_eq_append hfields length_storeStringInBuffer
  rw [Mem.ptr_ptr] at hb
  exact ⟨hcode, pathField.take_isStr hpath.le hp _, boxNameField.take_isStr hbox.le hb _⟩

theorem takeListingRequest_sendListingRequest {path : CString} (hpath : path.strlen < sizeofPipePath)
    (h : b.bytes sizeofListingRequest = sendListingRequest path) (request : Raw.ListingRequest) :
    (takeListingRequest b request).code = listingCode ∧
      (takeListingRequest b request).clientNamedPipePath.IsStr path.chars := by
  have hsize : sizeofListingRequest = sizeofPipePath + 1 := rfl
  rw [hsize, Mem.bytes_succ, sendListingRequest, List.cons.injEq] at h
  exact ⟨h.1, pathField.take_isStr hpath.le h.2 _⟩

theorem takeMessage_sendMessage {code : UInt8} {text : CString} (htext : text.strlen < sizeofText)
    (h : b.bytes sizeofMessage = sendMessage code text) (message : Raw.Message) :
    (takeMessage b message).code = code ∧ (takeMessage b message).message.IsStr text.chars := by
  have hsize : sizeofMessage = sizeofText + 1 := rfl
  rw [hsize, Mem.bytes_succ, sendMessage, List.cons.injEq] at h
  exact ⟨h.1, messageField.take_isStr htext.le h.2 _⟩

/-! ### Padded records -/

theorem bytes_ptr_copy (m src : Mem) (lo n : Nat) : ((m.copy lo src n).ptr lo).bytes n = src.bytes n := by
  refine Mem.bytes_congr fun i hi => ?_
  rw [Mem.ptr_apply, Mem.copy_apply_of_mem (Nat.le_add_right _ _) (by omega), Nat.add_sub_cancel_left]

theorem bytes_ptr_storeStringAt (m : Mem) (lo : Nat) (s : CString) (space : Nat) :
    ((storeStringAt m lo s space).ptr lo).bytes space = storeStringInBuffer s space := by
  have hbytes := Mem.bytes_ofList (storeStringInBuffer s space)
  rw [length_storeStringInBuffer] at hbytes
  rw [storeStringAt, bytes_ptr_copy, hbytes]

theorem bytes_ptr_copy_of_disjoint {m src : Mem} {k : Nat} (h : j + k ≤ lo ∨ lo + n ≤ j) :
    ((m.copy lo src n).ptr j).bytes k = (m.ptr j).bytes k := by
  refine Mem.bytes_congr fun i hi => ?_
  rw [Mem.ptr_apply, Mem.ptr_apply, Mem.copy_apply_of_not_mem (by omega)]

theorem eq_of_bytes_eq {b' : Mem} (h : b.bytes n = b'.bytes n) (hi : i < n) : b i = b' i := by
  have hget := congrArg (fun l => l[i]?) h
  simpa [Mem.getElem?_bytes _ hi] using hget

/-- A part of a record that was received whole. -/
theorem bytes_ptr_of_bytes {b' : Mem} {k : Nat} (h : b.bytes n = b'.bytes n) (hj : j + k ≤ n) :
    (b.ptr j).bytes k = (b'.ptr j).bytes k := by
  refine Mem.bytes_congr fun i hi => ?_
  rw [Mem.ptr_apply, Mem.ptr_apply]
  exact eq_of_bytes_eq h (by omega)

theorem readInt32_of_bytes {b' : Mem} (h : b.bytes 4 = b'.bytes 4) : readInt32 b = readInt32 b' :=
  readInt32_congr fun _ hi => eq_of_bytes_eq h hi

theorem readLE_of_bytes {b' : Mem} (h : b.bytes n = b'.bytes n) : readLE b n = readLE b' n :=
  readLE_congr fun _ hi => eq_of_bytes_eq h hi

theorem fillResponseBuffer_code (m : Mem) (r : BoxResponse) : fillResponseBuffer m r 0 = r.code := by
  simp only [fillResponseBuffer, storeStringAt]
  rw [Mem.copy_apply_of_not_mem (by omega), Mem.copy_apply_of_not_mem (by omega),
    Mem.copy_apply_of_mem (by omega) (by omega)]

theorem fillResponseBuffer_returnCode (m : Mem) (r : BoxResponse) :
    ((fillResponseBuffer m r).ptr 1).bytes 4 = (int32Mem r.returnCode).bytes 4 := by
  simp only [fillResponseBuffer, storeStringAt]
  rw [bytes_ptr_copy_of_disjoint (by omega)]
  exact bytes_ptr_copy _ _ _ _

theorem fillResponseBuffer_errorMessage (m : Mem) (r : BoxResponse) :
    ((fillResponseBuffer m r).ptr errorMessageField.offset).bytes sizeofErrorMessage =
      storeStringInBuffer r.errorMessage sizeofErrorMessage := bytes_ptr_storeStringAt _ _ _ _

theorem takeBoxResponse_sendBoxResponse {m : Mem} {r : BoxResponse} (hcode : -2 ^ 31 ≤ r.returnCode)
    (hcode' : r.returnCode < 2 ^ 31) (herror : r.errorMessage.strlen < sizeofErrorMessage)
    (h : b.bytes sizeofBoxResponse = sendBoxResponse m r) (response : Raw.BoxResponse) :
    (takeBoxResponse b response).code = r.code ∧ readInt32 (b.ptr 1) = r.returnCode ∧
      (r.code = 4 ∨ r.code = 6 → (takeBoxResponse b response).returnCode = r.returnCode ∧
        (r.returnCode = -1 → (takeBoxResponse b response).errorMessage.IsStr r.errorMessage.chars)) := by
  have hcode₀ : b 0 = r.code := by
    rw [eq_of_bytes_eq h (show 0 < sizeofBoxResponse by decide), fillResponseBuffer_code]
  have hret : readInt32 (b.ptr 1) = r.returnCode := by
    rw [← readInt32_int32Mem hcode hcode', readInt32_of_bytes]
    rw [bytes_ptr_of_bytes h (by decide), fillResponseBuffer_returnCode]
  have hstr : (errorMessageField.take b response.errorMessage).IsStr r.errorMessage.chars := by
    refine errorMessageField.take_isStr herror.le ?_ _
    have hbytes := bytes_ptr_of_bytes h
      (show errorMessageField.offset + sizeofErrorMessage ≤ sizeofBoxResponse by decide)
    rw [fillResponseBuffer_errorMessage] at hbytes
    exact hbytes
  refine ⟨?_, hret, fun hknown => ?_⟩
  · simp only [takeBoxResponse, hcode₀, hret]
    repeat' split
    all_goals rfl
  · simp only [takeBoxResponse, hcode₀, hret, if_pos hknown]
    by_cases h0 : r.returnCode = 0
    · rw [if_pos h0]
      refine ⟨rfl, fun h1 => ?_⟩
      rw [h1] at h0
      cases h0
    · rw [if_neg h0]
      by_cases h1 : r.returnCode = -1
      · rw [if_pos h1]
        exact ⟨rfl, fun _ => hstr⟩
      · rw [if_neg h1]
        exact ⟨rfl, fun he => absurd he h1⟩

/-! ### Listings -/

theorem fillListingBuffer_code (m : Mem) (r : ListingResponse) : fillListingBuffer m r 0 = r.code := by
  simp only [fillListingBuffer, storeStringAt, sizeofBoxName]
  repeat rw [Mem.copy_apply_of_not_mem (by omega)]
  exact Mem.copy_apply_of_mem (by omega) (by omega)

theorem fillListingBuffer_last (m : Mem) (r : ListingResponse) : fillListingBuffer m r 1 = r.last := by
  simp only [fillListingBuffer, storeStringAt, sizeofBoxName]
  repeat rw [Mem.copy_apply_of_not_mem (by omega)]
  exact Mem.copy_apply_of_mem (by omega) (by omega)

theorem fillListingBuffer_boxName (m : Mem) (r : ListingResponse) :
    ((fillListingBuffer m r).ptr listingNameField.offset).bytes sizeofBoxName =
      storeStringInBuffer r.boxName sizeofBoxName := by
  simp only [fillListingBuffer, listingNameField]
  rw [bytes_ptr_copy_of_disjoint (by simp [sizeofBoxName]), bytes_ptr_copy_of_disjoint (by simp [sizeofBoxName]),
    bytes_ptr_copy_of_disjoint (by simp [sizeofBoxName])]
  exact bytes_ptr_storeStringAt _ _ _ _

theorem fillListingBuffer_counts (m : Mem) (r : ListingResponse) :
    ((fillListingBuffer m r).ptr 34).bytes 8 = (leMem r.boxSize).bytes 8 ∧
      ((fillListingBuffer m r).ptr 42).bytes 8 = (leMem r.nPublishers).bytes 8 ∧
      ((fillListingBuffer m r).ptr 50).bytes 8 = (leMem r.nSubscribers).bytes 8 := by
  simp only [fillListingBuffer, sizeofBoxName]
  refine ⟨?_, ?_, bytes_ptr_copy _ _ _ _⟩
  · rw [bytes_ptr_copy_of_disjoint (by omega), bytes_ptr_copy_of_disjoint (by omega)]
    exact bytes_ptr_copy _ _ _ _
  · rw [bytes_ptr_copy_of_disjoint (by omega)]
    exact bytes_ptr_copy _ _ _ _

/-- The manager gets the fields of the record that the worker filled in; the counts have 64 bits. -/
theorem takeListingResponse_fill {m : Mem} {r : ListingResponse} (hcode : r.code = 8)
    (hname : r.boxName.strlen ≤ sizeofBoxName) (hsize : r.boxSize < 2 ^ 64) (hpubs : r.nPublishers < 2 ^ 64)
    (hsubs : r.nSubscribers < 2 ^ 64)
    (h : b.bytes sizeofListingResponse = (fillListingBuffer m r).bytes sizeofListingResponse)
    (response : Raw.ListingResponse) :
    (takeListingResponse b response).code = 8 ∧ (takeListingResponse b response).last = r.last ∧
      listingNameField.string b = r.boxName ∧
      (takeListingResponse b response).boxSize = r.boxSize ∧
      (takeListingResponse b response).nPublishers = r.nPublishers ∧
      (takeListingResponse b response).nSubscribers = r.nSubscribers := by
  have hcode₀ : b 0 = 8 := by
    rw [eq_of_bytes_eq h (show 0 < sizeofListingResponse by decide), fillListingBuffer_code, hcode]
  have hlast : b 1 = r.last := by
    rw [eq_of_bytes_eq h (show 1 < sizeofListingResponse by decide), fillListingBuffer_last]
  have hbytes := bytes_ptr_of_bytes h (show listingNameField.offset + sizeofBoxName ≤ sizeofListingResponse by decide)
  rw [fillListingBuffer_boxName] at hbytes
  have hstr := listingNameField.string_eq hname hbytes
  obtain ⟨hb₁, hb₂, hb₃⟩ := fillListingBuffer_counts m r
  have hread : ∀ {j w : Nat}, j + 8 ≤ sizeofListingResponse → w < 2 ^ 64 →
      ((fillListingBuffer m r).ptr j).bytes 8 = (leMem w).bytes 8 → readLE (b.ptr j) 8 = w := by
    intro j w hj hw he
    rw [readLE_of_bytes ((bytes_ptr_of_bytes h hj).trans he), readLE_leMem]
    exact Nat.mod_eq_of_lt (by norm_num at hw ⊢; exact hw)
  have h₁ := hread (by decide) hsize hb₁
  have h₂ := hread (by decide) hpubs hb₂
  have h₃ := hread (by decide) hsubs hb₃
  have htake : takeListingResponse b response =
      { code := 8
        last := b 1
        boxName := listingNameField.take b response.boxName
        boxSize := readLE (b.ptr 34) 8
        nPublishers := readLE (b.ptr 42) 8
        nSubscribers := readLE (b.ptr 50) 8 } := by
    simp only [takeListingResponse, hcode₀, if_pos, sizeofBoxName]
  rw [htake]
  exact ⟨rfl, hlast, hstr, h₁, h₂, h₃⟩

/-! ## Calls of `remove_strings_from_buffer` -/

/-- The buffers that records are received into. A request and a list request come into the same one. -/
inductive Received
  | request
  | message
  | boxResponse
  | listingResponse
  deriving DecidableEq

/-- The fields that are taken out of what was received. -/
def Received.stringFields (received : Received) (buffer : Mem) : List StringField :=
  match received with
  | .request =>
    if buffer 0 = 1 ∨ buffer 0 = 2 ∨ buffer 0 = 3 ∨ buffer 0 = 5 then [pathField, boxNameField]
    else if buffer 0 = 7 then [pathField]
    else []
  | .message => [messageField]
  | .boxResponse =>
    if (buffer 0 = 4 ∨ buffer 0 = 6) ∧ readInt32 (buffer.ptr 1) = -1 then [errorMessageField] else []
  | .listingResponse => if buffer 0 = 8 then [listingNameField] else []

end Mbroker.Protocol
