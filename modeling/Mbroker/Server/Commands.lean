import Mbroker.Manager.Command
import Mbroker.Server.Invariants

/-!
# What becomes of a command

The manager's command for one box, from its arguments to the line that it prints.
-/

namespace Mbroker.Server

open Mbroker.Lib Mbroker.Protocol Mbroker.Manager Mbroker.Sessions

variable {kind : Dispatch.Kind} {j : Job}

/-- What the worker did for the request `d`, and what the manager prints of its answer. -/
inductive Reported (kind : Dispatch.Kind) (d : Dispatch.Decoded) (j : Job) : Prop
  | created {addr : Nat} {contents : Mem} : kind = .creation →
      j.trace = [.take j.worker d, .tfsOpen j.worker, .insert j.worker addr contents, .respond j.worker] →
      Prints j.output okLine → Reported kind d j
  | notCreated : kind = .creation → j.trace = [.take j.worker d, .tfsOpen j.worker, .respond j.worker] →
      Prints j.output (errorLine (ascii "Erro a criar")) → Reported kind d j
  | removed {name : CString} : kind = .removal → Asks d 5 name → j.list.TakesOut name →
      j.trace = [.take j.worker d, .tfsUnlink j.worker, .deleteBox j.worker, .respond j.worker] →
      Prints j.output okLine → Reported kind d j
  /-- The file was there, and the box was not in the list. -/
  | missed {name : CString} : kind = .removal → Asks d 5 name → j.list.Misses name →
      j.trace = [.take j.worker d, .tfsUnlink j.worker, .deleteBox j.worker, .respond j.worker] →
      Prints j.output okLine → Reported kind d j
  | notRemoved : kind = .removal → j.trace = [.take j.worker d, .tfsUnlink j.worker, .respond j.worker] →
      Prints j.output (errorLine (ascii "Erro a remover")) → Reported kind d j

/-- The request that a worker copies of a command holds its strings whole. -/
theorem contents_of_written {c : Command} {pipe box : CString}
    (h : c.written = some (.request kind pipe box)) :
    (Dispatch.ClientRequest.request kind pipe box).contents = .request ⟨kind.code, pipe, box⟩ := by
  obtain ⟨-, hpipe, hbox⟩ := Command.written_eq_request h
  rw [Dispatch.ClientRequest.contents, CString.truncate_of_le hpipe.le, CString.truncate_of_le hbox.le]

theorem reported_of_complete {r : Request} (hkind : kind = .creation ∨ kind = .removal) (hcode : r.code = kind.code)
    (h : Complete j.worker j.list j.trace j.output (.request r)) : Reported kind (.request r) j := by
  have h2 : r.code ≠ 2 := by
    rw [hcode]
    obtain rfl | rfl := hkind <;> decide
  have h35 : r.code = 3 ∨ r.code = 5 := by
    rw [hcode]
    obtain rfl | rfl := hkind
    · exact Or.inl rfl
    · exact Or.inr rfl
  simp only [Complete, if_neg h2, if_pos h35] at h
  obtain ⟨steps, response, ha, htrace, hout⟩ := h
  have hcreation : ∀ {name : CString}, Asks (.request r) 3 name → kind = .creation := by
    rintro name ⟨r', hr', hcode', -⟩
    cases hr'
    rw [hcode] at hcode'
    obtain rfl | rfl := hkind
    · rfl
    · cases hcode'
  have hremoval : ∀ {name : CString}, Asks (.request r) 5 name → kind = .removal := by
    rintro name ⟨r', hr', hcode', -⟩
    cases hr'
    rw [hcode] at hcode'
    obtain rfl | rfl := hkind
    · cases hcode'
    · rfl
  cases ha with
  | created ha => exact .created (hcreation ha) htrace (by rw [hout]; exact prints_createOk)
  | notCreated ha => exact .notCreated (hcreation ha) htrace (by rw [hout]; exact prints_createError)
  | removed ha ht => exact .removed (hremoval ha) ha ht htrace (by rw [hout]; exact prints_removeOk)
  | missed ha hm => exact .missed (hremoval ha) ha hm htrace (by rw [hout]; exact prints_removeOk)
  | notRemoved ha => exact .notRemoved (hremoval ha) htrace (by rw [hout]; exact prints_removeError)

end Mbroker.Server
