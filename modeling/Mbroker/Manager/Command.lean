import Mbroker.Dispatch.Model
import Mbroker.Manager.Output
import Mbroker.Protocol.Wire

/-!
# The commands of the manager

`main` of `manager/manager.c`: what the arguments ask for, the request that is written for it, and what is printed of
the answer to a creation or a removal.
-/

namespace Mbroker.Manager

open Mbroker.Lib Mbroker.Protocol Mbroker.Sessions

/-! ## The arguments -/

inductive Command
  | list (registerPipeName pipeName : CString)
  | request (kind : Dispatch.Kind) (registerPipeName pipeName boxName : CString)
  | usage
  deriving DecidableEq

/-- `sprintf(…, "../%s", …)` -/
def inParent (name : CString) : CString where
  chars := (ascii "../").chars ++ name.chars
  noNul := by
    rw [List.mem_append]
    rintro (h | h)
    · exact (ascii "../").noNul h
    · exact name.noNul h

/-- The tests of `argc` and `argv`. -/
def command : List CString → Command
  | [_, register, pipe, word] =>
    if strcmp word.mem (ascii "list") = 0 then .list (inParent register) (inParent pipe) else .usage
  | [_, register, pipe, word, box] =>
    if strcmp word.mem (ascii "create") = 0 then .request .creation (inParent register) (inParent pipe) box
    else if strcmp word.mem (ascii "remove") = 0 then .request .removal (inParent register) (inParent pipe) box
    else .usage
  | _ => .usage

/-- What is written to the register pipe. Strings that do not fit are copied over the end of their arrays. -/
def Command.written : Command → Option Dispatch.ClientRequest
  | list _ pipe => if pipe.strlen < sizeofPipePath then some (.listing pipe) else none
  | request kind _ pipe box =>
    if pipe.strlen < sizeofPipePath ∧ box.strlen < sizeofBoxName then some (.request kind pipe box) else none
  | usage => none

variable {argv : List CString} {kind : Dispatch.Kind} {register pipe box : CString} {output : List Output}

theorem command_kind (h : command argv = .request kind register pipe box) : kind = .creation ∨ kind = .removal := by
  unfold command at h
  split at h
  · split at h <;> cases h
  · split at h
    · cases h
      exact Or.inl rfl
    · split at h
      · cases h
        exact Or.inr rfl
      · cases h
  · cases h

theorem Command.written_eq_request {c : Command} (h : c.written = some (.request kind pipe box)) :
    (∃ register, c = .request kind register pipe box) ∧ pipe.strlen < sizeofPipePath ∧
      box.strlen < sizeofBoxName := by
  cases c with
  | list => simp [written] at h
  | usage => cases h
  | request kind' register pipe' box' =>
      simp only [written] at h
      split at h
      · rename_i hfit
        cases h
        exact ⟨⟨register, rfl⟩, hfit⟩
      · cases h

/-! ## The answer -/

def okLine : List UInt8 := (ascii "OK\n").chars
def errorLine (message : CString) : List UInt8 := (ascii "ERROR ").chars ++ message.chars ++ [newline]
def unknownLine : List UInt8 := (ascii "UNKNOWN BOX RETURN RESPONSE\n").chars

/-- What is printed of what the read leaves in `response_buffer`; `box_response` held `response`. -/
def printResponse (responseBuffer : Mem) (response : Raw.BoxResponse) : List UInt8 :=
  let boxResponse := takeBoxResponse responseBuffer response
  if boxResponse.code = 4 ∨ boxResponse.code = 6 then
    if boxResponse.returnCode = 0 then okLine
    else if boxResponse.returnCode = -1 then errorLine (errorMessageField.string responseBuffer)
    else unknownLine
  else []

/-- The worker wrote one answer, and the manager prints this of it, whatever its buffers and structs held before. -/
def Prints (output : List Output) (text : List UInt8) : Prop :=
  ∃ r : BoxResponse, output = [.response r] ∧ ∀ stale buffer response,
    printResponse (readPipe buffer 0 sizeofBoxResponse (sendBoxResponse stale r)) response = text

/-- What an answer is printed as. -/
theorem printResponse_send {r : BoxResponse} (hknown : r.code = 4 ∨ r.code = 6)
    (hret : r.returnCode = 0 ∨ r.returnCode = -1) (herror : r.errorMessage.strlen < sizeofErrorMessage) :
    Prints [.response r] (if r.returnCode = 0 then okLine else errorLine r.errorMessage) := by
  refine ⟨r, rfl, fun stale buffer response => ?_⟩
  have hlen : (sendBoxResponse stale r).length = sizeofBoxResponse := Mem.length_bytes _ _
  obtain ⟨b, hb⟩ : ∃ b, b = readPipe buffer 0 sizeofBoxResponse (sendBoxResponse stale r) := ⟨_, rfl⟩
  have hbytes : b.bytes sizeofBoxResponse = sendBoxResponse stale r := by
    have hread : ((readPipe buffer 0 sizeofBoxResponse (sendBoxResponse stale r ++ [])).ptr 0).bytes
        (sendBoxResponse stale r).length = sendBoxResponse stale r := bytes_readPipe hlen.le []
    rw [List.append_nil, hlen, Mem.ptr_zero] at hread
    rw [hb]
    exact hread
  have hlo : -2 ^ 31 ≤ r.returnCode := by
    obtain h | h := hret <;> rw [h] <;> decide
  have hhi : r.returnCode < 2 ^ 31 := by
    obtain h | h := hret <;> rw [h] <;> decide
  obtain ⟨hcode, -, htaken⟩ := takeBoxResponse_sendBoxResponse hlo hhi herror hbytes response
  obtain ⟨hreturn, -⟩ := htaken hknown
  have hstring : errorMessageField.string b = r.errorMessage := by
    refine errorMessageField.string_eq herror.le ?_
    have hpart := bytes_ptr_of_bytes hbytes
      (show errorMessageField.offset + sizeofErrorMessage ≤ sizeofBoxResponse by decide)
    rw [fillResponseBuffer_errorMessage] at hpart
    exact hpart
  rw [← hb]
  simp only [printResponse, hcode, hreturn, if_pos hknown, hstring]
  obtain h | h := hret
  · rw [if_pos h, if_pos h]
  · have hne : r.returnCode ≠ 0 := by
      rw [h]
      decide
    rw [if_neg hne, if_neg hne, if_pos h]

theorem prints_createOk : Prints [.response createOk] okLine :=
  printResponse_send (Or.inl rfl) (Or.inl rfl) (by decide)

theorem prints_createError : Prints [.response createError] (errorLine (ascii "Erro a criar")) :=
  printResponse_send (Or.inl rfl) (Or.inr rfl) (by decide)

theorem prints_removeOk : Prints [.response removeOk] okLine :=
  printResponse_send (Or.inr rfl) (Or.inl rfl) (by decide)

theorem prints_removeError : Prints [.response removeError] (errorLine (ascii "Erro a remover")) :=
  printResponse_send (Or.inr rfl) (Or.inr rfl) (by decide)

end Mbroker.Manager
