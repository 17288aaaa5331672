import Mathlib.Data.List.TakeWhile
import Mbroker.Lib.Memory

/-!
# Strings and records of the protocol

The functions of `protocol/protocol.c` that put a string into a field of fixed length and take it out again,
and the records the clients write. A record is the list of its bytes: every byte of it is written before it is
sent. A `char` array that a string is taken out to is that string.
-/

namespace Mbroker.Protocol

open Mbroker.Lib

/-! ## Sizes -/

/-- `sizeof(client_named_pipe_path)` -/
def sizeofPipePath : Nat := 256

/-- `sizeof(box_name)` -/
def sizeofBoxName : Nat := 32

/-- `sizeof(message.message)` -/
def sizeofText : Nat := 1024

/-- `sizeof(Request)` -/
def sizeofRequest : Nat := 1 + sizeofPipePath + sizeofBoxName

/-- `sizeof(ListingRequest)` -/
def sizeofListingRequest : Nat := 1 + sizeofPipePath

/-- `sizeof(Message)` -/
def sizeofMessage : Nat := 1 + sizeofText

/-! ## Strings in fields -/

/-- The `space` bytes that `store_string_in_buffer` writes. -/
def storeStringInBuffer (str1 : CString) (space : Nat) : List UInt8 :=
  let len := if space < str1.strlen then space else str1.strlen
  str1.chars.take len ++ if str1.strlen < space then List.replicate (space - str1.strlen) 0 else []

/-- The string that `remove_strings_from_buffer` puts in `str1`: at most `space` characters, and the NUL behind
them. -/
def removeStringsFromBuffer (buffer : Mem) (space : Nat) : CString where
  chars := (buffer.bytes space).takeWhile (· ≠ 0)
  noNul := fun h => by simpa using List.mem_takeWhile_imp h

/-- The string, and the characters of the buffer that are done with. -/
def removeFirstStringFromBuffer (buffer : Mem) (maxSpace : Nat) : CString × Nat :=
  let str1 := removeStringsFromBuffer buffer maxSpace
  (str1, str1.strlen + 1)

variable {str1 : CString} {space : Nat} {buffer : Mem}

@[simp] theorem length_storeStringInBuffer : (storeStringInBuffer str1 space).length = space := by
  unfold storeStringInBuffer
  split <;> split <;> simp [CString.strlen] at * <;> omega

theorem strlen_removeStringsFromBuffer_le (buffer : Mem) (space : Nat) :
    (removeStringsFromBuffer buffer space).strlen ≤ space := by
  have hle := (List.takeWhile_prefix (l := buffer.bytes space) (· ≠ 0)).length_le
  rw [Mem.length_bytes] at hle
  exact hle

/-- A string that is taken out ends at a NUL. -/
theorem removeStringsFromBuffer_le_of_nul {i : Nat} (hnul : buffer i = 0) :
    (removeStringsFromBuffer buffer space).strlen ≤ i := by
  by_contra hlt
  have hlt : i < ((buffer.bytes space).takeWhile (· ≠ 0)).length := not_le.mp hlt
  have hget : ((buffer.bytes space).takeWhile (· ≠ 0))[i] = buffer i := by
    have hpre : (buffer.bytes space).takeWhile (· ≠ 0) <+: buffer.bytes space := List.takeWhile_prefix _
    rw [hpre.getElem hlt]
    simp [Mem.bytes]
  have hne := List.mem_takeWhile_imp (List.getElem_mem hlt)
  rw [hget, hnul] at hne
  simp at hne

theorem getElem?_storeStringInBuffer {i : Nat} (hlo : str1.strlen ≤ i) (hi : i < space) :
    (storeStringInBuffer str1 space)[i]? = some 0 := by
  have hfit : ¬ space < str1.strlen := by omega
  have hlen : str1.chars.length = str1.strlen := rfl
  unfold storeStringInBuffer
  rw [if_neg hfit, if_pos (by omega), List.getElem?_append_right (by simp; omega)]
  rw [List.getElem?_replicate, if_pos (by simp; omega)]

theorem takeWhile_storeStringInBuffer :
    (storeStringInBuffer str1 space).takeWhile (· ≠ 0) = str1.chars.take space := by
  have hne : ∀ n, ∀ x ∈ str1.chars.take n, decide (x ≠ 0) = true := by
    intro n x hx
    have hx' : x ≠ 0 := fun h0 => str1.noNul (h0 ▸ List.mem_of_mem_take hx)
    simpa using hx'
  have hzero : ∀ k, (List.replicate k (0 : UInt8)).takeWhile (fun x => decide (x ≠ 0)) = [] := by
    intro k
    cases k <;> simp [List.replicate_succ]
  unfold storeStringInBuffer
  by_cases hlen : space < str1.strlen
  · rw [if_pos hlen, if_neg (by omega), List.append_nil]
    exact List.takeWhile_eq_self_iff.mpr (hne space)
  · rw [if_neg hlen, List.takeWhile_append_of_pos (hne _), CString.strlen]
    have htail : (if str1.chars.length < space then List.replicate (space - str1.chars.length) (0 : UInt8)
        else []).takeWhile (fun x => decide (x ≠ 0)) = [] := by
      split
      · exact hzero _
      · rfl
    rw [htail, List.append_nil, List.take_length, List.take_of_length_le]
    simpa [CString.strlen] using hlen

/-- What is taken out of a field is what was put in, as far as it fits. -/
theorem removeStringsFromBuffer_store (h : buffer.bytes space = storeStringInBuffer str1 space) :
    removeStringsFromBuffer buffer space = str1.truncate space := by
  simp only [removeStringsFromBuffer, h, CString.truncate, CString.mk.injEq]
  exact takeWhile_storeStringInBuffer

/-! ## Requests -/

structure Request where
  code : UInt8
  clientNamedPipePath : CString
  boxName : CString
  deriving DecidableEq

/-- The bytes `send_request` writes. -/
def sendRequest (request : Request) : List UInt8 :=
  request.code :: (storeStringInBuffer request.clientNamedPipePath sizeofPipePath ++
    storeStringInBuffer request.boxName sizeofBoxName)

/-- The code of a list request. -/
def listingCode : UInt8 := 7

/-- The bytes the manager writes for a list request. -/
def sendListingRequest (clientNamedPipePath : CString) : List UInt8 :=
  listingCode :: storeStringInBuffer clientNamedPipePath sizeofPipePath

@[simp] theorem length_sendRequest (request : Request) : (sendRequest request).length = sizeofRequest := by
  simp [sendRequest, sizeofRequest]
  omega

@[simp] theorem length_sendListingRequest (path : CString) :
    (sendListingRequest path).length = sizeofListingRequest := by
  simp [sendListingRequest, sizeofListingRequest]
  omega

/-! ## Messages -/

/-- The code of a message from a publisher. -/
def publishCode : UInt8 := 9

/-- The code of a message to a subscriber. -/
def subscriberCode : UInt8 := 10

/-- The bytes of a message. -/
def sendMessage (code : UInt8) (message : CString) : List UInt8 := code :: storeStringInBuffer message sizeofText

/-- The text of the message in `message_buffer`. -/
def messageText (messageBuffer : Mem) : CString := removeStringsFromBuffer (messageBuffer.ptr 1) sizeofText

@[simp] theorem length_sendMessage (code : UInt8) (message : CString) :
    (sendMessage code message).length = sizeofMessage := by
  simp [sendMessage, sizeofMessage]
  omega

/-- A message that lies whole in the buffer gives back its text. -/
theorem messageText_sendMessage {m : Mem} {code : UInt8} {message : CString} (hlen : message.strlen ≤ sizeofText)
    (h : m.bytes sizeofMessage = sendMessage code message) : messageText m = message := by
  have hsize : sizeofMessage = sizeofText + 1 := rfl
  rw [hsize, Mem.bytes_succ, sendMessage, List.cons.injEq] at h
  rw [messageText, removeStringsFromBuffer_store h.2, CString.truncate_of_le hlen]

/-! ## Answers of the broker -/

/-- A string of ASCII characters. -/
def ascii (text : String) : CString where
  chars := (text.toList.map fun c => UInt8.ofNat c.toNat).filter (· ≠ 0)
  noNul := by simp

def newline : UInt8 := 10

structure BoxResponse where
  code : UInt8
  returnCode : Int
  errorMessage : CString
  deriving DecidableEq

structure ListingResponse where
  code : UInt8
  last : UInt8
  boxName : CString
  boxSize : Nat
  nPublishers : Nat
  nSubscribers : Nat
  deriving DecidableEq

end Mbroker.Protocol
