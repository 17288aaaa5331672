import Mbroker.Lib.Pipe
import Mbroker.Protocol.Messages

/-!
# Messages in a pipe

Messages of one code that were written to a pipe one after another, and a read of `sizeof(Message)` bytes.
-/

namespace Mbroker.Protocol

open Mbroker.Lib

variable {code : UInt8} {m : Mem} {t : CString} {texts rest : List CString}

/-- The bytes of the messages. -/
def messageBytes (code : UInt8) (texts : List CString) : List UInt8 := (texts.map (sendMessage code)).flatten

@[simp] theorem messageBytes_nil : messageBytes code [] = [] := rfl

@[simp] theorem messageBytes_cons :
    messageBytes code (t :: texts) = sendMessage code t ++ messageBytes code texts := rfl

theorem messageBytes_append : messageBytes code (texts ++ [t]) = messageBytes code texts ++ sendMessage code t := by
  simp [messageBytes]

theorem messageBytes_eq_nil : messageBytes code texts = [] ↔ texts = [] := by
  cases texts <;> simp [sendMessage]

theorem length_messageBytes : (messageBytes code texts).length = sizeofMessage * texts.length := by
  induction texts with
  | nil => rfl
  | cons t texts ih =>
      rw [messageBytes_cons, List.length_append, length_sendMessage, ih, List.length_cons, Nat.mul_succ, Nat.add_comm]

theorem read_messageBytes (code : UInt8) (m : Mem) (rest : List CString) (ht : t.strlen < sizeofText) :
    readPipe m 0 sizeofMessage (messageBytes code (t :: rest)) 0 = code ∧
      messageText (readPipe m 0 sizeofMessage (messageBytes code (t :: rest))) = t ∧
      (messageBytes code (t :: rest)).drop sizeofMessage = messageBytes code rest := by
  have hlen := length_sendMessage code t
  have hframed : Framed sizeofMessage ((t :: rest).map (sendMessage code)) := ⟨hlen.le, Or.inl hlen⟩
  have hbytes : ((readPipe m 0 sizeofMessage (messageBytes code (t :: rest))).ptr 0).bytes (sendMessage code t).length =
      sendMessage code t := hframed.bytes
  rw [hlen, Mem.ptr_zero] at hbytes
  refine ⟨?_, messageText_sendMessage ht.le hbytes, hframed.rest⟩
  have hsize : sizeofMessage = sizeofText + 1 := rfl
  rw [hsize, Mem.bytes_succ, sendMessage, List.cons.injEq] at hbytes
  exact hbytes.1

end Mbroker.Protocol
